import AnnotatedAtoms.Lexeme.Tokens
import AnnotatedAtoms.Proofs.Lexeme.Longest

/-!
# Tokens and pieces

What the tokens of a text have to do with its longest pieces: every parenthesis, word and quoted
text is one token, and every other piece is none.

* `tokenize_eq_ok_iff`: a text has tokens when its pieces make up all of it;
* `tokenize_longest_pieces`: the tokens of a text are read off its longest pieces.
-/

namespace AnnotatedAtoms

/-- How a token is written in a source text. -/
def Token.spelling (t : Token) : List Char :=
  if t.quoted then '"' :: t.text.toList ++ ['"'] else t.text.toList

namespace Lexeme

/-- The pieces that are tokens. -/
def isToken : Lexeme → Bool
  | .opening | .closing | .quoted _ | .word _ => true
  | .newline | .blanks _ | .comment _ => false

def isQuoted : Lexeme → Bool
  | .quoted _ => true
  | _ => false

theorem token?_eq_none_iff (l : Lexeme) : l.token? = none ↔ l.isToken = false := by
  cases l <;> simp [token?, isToken]

/-- A token is its piece again, and only a quoted text is held without its marks. -/
theorem spelling_of_token? {l : Lexeme} {t : Token} (h : l.token? = some t) :
    l.isToken = true ∧ t.quoted = l.isQuoted ∧ t.spelling = l.source := by
  cases l with
  | newline => cases h
  | blanks run => cases h
  | comment body => cases h
  | opening =>
    cases h
    exact ⟨rfl, rfl, rfl⟩
  | closing =>
    cases h
    exact ⟨rfl, rfl, rfl⟩
  | quoted body =>
    cases h
    simp [isToken, isQuoted, Token.spelling, Token.quotation, source]
  | word run =>
    cases h
    simp [isToken, isQuoted, Token.spelling, Token.bare, source]

theorem map_spelling_filterMap_token? (ls : List Lexeme) :
    (ls.filterMap token?).map (fun t => (t.quoted, t.spelling)) =
      (ls.filter isToken).map fun l => (l.isQuoted, l.source) := by
  induction ls with
  | nil => rfl
  | cons l ls ih =>
    cases h : l.token? with
    | none =>
      have hl := (token?_eq_none_iff l).mp h
      rw [List.filterMap_cons_none h, List.filter_cons_of_neg (by simp [hl]), ih]
    | some t =>
      obtain ⟨hl, hq, hs⟩ := spelling_of_token? h
      rw [List.filterMap_cons_some h, List.filter_cons_of_pos hl, List.map_cons, List.map_cons, ih,
        hq, hs]

theorem tokens_cons (line : Nat) (l : Lexeme) (ls : List Lexeme) :
    tokens line (l :: ls) =
      (l.token?.map fun t => (t, line)).toList ++ tokens (line + l.newlines) ls := by
  cases h : l.token? <;> simp [tokens, numbered, h]

/-- The lines take no part in which tokens there are. -/
theorem map_fst_tokens (line : Nat) (ls : List Lexeme) :
    (tokens line ls).map Prod.fst = ls.filterMap token? := by
  have hpieces : ls.filterMap token? = ((numbered line ls).map Prod.fst).filterMap token? := by
    rw [map_fst_numbered]
  rw [hpieces, tokens, List.map_filterMap, List.filterMap_map]
  congr 1
  funext p
  rw [Option.map_map]
  exact Option.map_id'

end Lexeme

open Lexeme

theorem tokenize_eq_ok_iff (source : String) (ts : List (Token × Nat)) :
    tokenize source = .ok ts ↔
      (cut source.toList).2 = [] ∧ ts = tokens 1 (cut source.toList).1 := by
  unfold tokenize
  split
  · rename_i ls h
    rw [h]
    constructor
    · intro e
      cases e
      exact ⟨rfl, rfl⟩
    · rintro ⟨-, rfl⟩
      rfl
  · rename_i ls rest hne h
    rw [h]
    constructor
    · intro e
      cases e
    · rintro ⟨rfl, -⟩
      exact absurd rfl hne

/-- **Pieces and tokens.** Cut a text from the left into longest pieces, as far as there are any.
The text has tokens exactly when the pieces are all of it, and the tokens are then its parentheses,
words and quoted texts, one for one and spelled as they stand. -/
theorem tokenize_longest_pieces (source : String) :
    ∃ ls rest, Cuts source.toList ls rest ∧
      (∀ ls' rest', Cuts source.toList ls' rest' → ls' = ls ∧ rest' = rest) ∧
      (∀ l ∈ ls, l.source ≠ []) ∧ ls.flatMap Lexeme.source ++ rest = source.toList ∧
      ((∃ ts, tokenize source = .ok ts) ↔ ls.flatMap Lexeme.source = source.toList) ∧
      ∀ ts, tokenize source = .ok ts →
        ts.map (fun t => (t.1.quoted, t.1.spelling)) =
          (ls.filter isToken).map fun l => (l.isQuoted, l.source) := by
  have hcuts := (cut_eq_iff source.toList _ _).mp rfl
  refine ⟨_, _, hcuts, ?_, fun l hl => (hcuts.valid l hl).source_ne_nil, hcuts.source_eq, ?_, ?_⟩
  · intro ls' rest' h
    rw [← cut_eq_iff] at h
    rw [h]
    exact ⟨rfl, rfl⟩
  · constructor
    · rintro ⟨ts, h⟩
      have hrest := ((tokenize_eq_ok_iff source ts).mp h).1
      simpa [hrest] using hcuts.source_eq
    · intro h
      have hrest := hcuts.source_eq
      rw [h, List.append_right_eq_self] at hrest
      exact ⟨_, (tokenize_eq_ok_iff source _).mpr ⟨hrest, rfl⟩⟩
  · intro ts h
    obtain ⟨-, rfl⟩ := (tokenize_eq_ok_iff source ts).mp h
    rw [← map_spelling_filterMap_token?, ← map_fst_tokens 1, List.map_map]
    rfl

/-- A semicolon in quotes begins no comment, and a quote in a comment opens nothing. No piece begins
at an open quote, so that text has no tokens. -/
theorem tokenize_longest_pieces_marks :
    (∃ ts, tokenize "a \"b;\";c\"" = .ok ts ∧
      ts.map (fun t => (t.1.quoted, t.1.spelling)) = [(false, ['a']), (true, "\"b;\"".toList)]) ∧
    ¬ ∃ ts, tokenize "a\"b" = .ok ts := by
  have hclosed : Cuts "a \"b;\";c\"".toList
      [.word ['a'], .blanks [' '], .quoted ['b', ';'], .comment ['c', '"']] [] :=
    (cut_eq_iff _ _ _).mp (by cbv)
  have hopen : Cuts "a\"b".toList [.word ['a']] ['"', 'b'] := (cut_eq_iff _ _ _).mp (by cbv)
  constructor
  · obtain ⟨ls, rest, -, hunique, -, -, htokens, hspelled⟩ :=
      tokenize_longest_pieces "a \"b;\";c\""
    obtain ⟨rfl, rfl⟩ := hunique _ _ hclosed
    obtain ⟨ts, hts⟩ := htokens.mpr (by decide)
    exact ⟨ts, hts, hspelled ts hts⟩
  · obtain ⟨ls, rest, -, hunique, -, -, htokens, -⟩ := tokenize_longest_pieces "a\"b"
    obtain ⟨rfl, rfl⟩ := hunique _ _ hopen
    rw [htokens]
    decide

end AnnotatedAtoms
