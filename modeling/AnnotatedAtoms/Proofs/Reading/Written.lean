import AnnotatedAtoms.Proofs.Decimal.RoundTrip
import AnnotatedAtoms.Proofs.Lexeme.Joined
import AnnotatedAtoms.Proofs.Reading.Atoms
import AnnotatedAtoms.Proofs.Reading.Classification

/-!
# Written atoms read back

Numbers and symbols are written as they are shown, strings in quotes. Where a value can be told
from its text at all, it is read back from the text that it is written as, alone or among others.

* `ofToken_token`: the token that a value is written as has that value;
* `readAll_join`: what is read from joined tokens;
* `readAll_written`: what is read from written atoms.
-/

namespace AnnotatedAtoms

open Binary64 (maxExactWhole)
open Literal

theorem not_special_of_isDigit {c : Char} (h : c.isDigit = true) : c ∉ specialChars := by
  have hspecial : (specialChars.any fun c => c.isDigit) = false := by decide
  intro hc
  rw [List.any_eq_false] at hspecial
  exact hspecial c hc h

theorem toList_render (x : Binary64) : x.render.toList = x.chars := String.toList_ofList

namespace Value

/-- The values that a text can tell: finite numbers, and texts without the marks that would end
them and without the beginning of a number. -/
def Writable : Value → Prop
  | .number x => x.isFinite = true
  | .symbol text =>
    text ≠ "" ∧ (∀ c ∈ text.toList, c ∉ specialChars) ∧ opens text.toList = false
  | .string text => '"' ∉ text.toList ∧ opens text.toList = false
  | .none | .complex _ => False

/-- The token that a value is written as. -/
def token : Value → Token
  | .string text => .quotation text
  | v => .bare v.render

theorem ofToken_token {v : Value} (h : v.Writable) : ofToken v.token = v := by
  cases v with
  | none => cases h
  | complex z => cases h
  | number x =>
    have hx : x.isFinite = true := h
    have hread : read? (Token.bare x.render).text.toList = some x := by
      rw [Token.bare, toList_render, Binary64.read?_chars, if_pos hx]
    exact ofToken_of_read? hread
  | symbol text => exact ofToken_of_not_opens h.2.2
  | string text => exact ofToken_of_not_opens h.2

theorem valid_piece_token {v : Value} (h : v.Writable) : v.token.piece.Valid := by
  cases v with
  | none => cases h
  | complex z => cases h
  | number x =>
    have hx : x.isFinite = true := h
    have hpiece : (Value.number x).token.piece = .word x.chars :=
      congrArg Lexeme.word (toList_render x)
    rw [hpiece]
    refine ⟨Binary64.chars_ne_nil hx, ?_⟩
    intro c hc
    rcases Binary64.chars_of_isFinite hx c hc with hdigit | rfl | rfl | rfl
    · exact not_special_of_isDigit hdigit
    · decide
    · decide
    · decide
  | symbol text =>
    obtain ⟨hne, hword, -⟩ := h
    exact ⟨fun hnil => hne (String.toList_eq_nil_iff.mp hnil), hword⟩
  | string text => exact h.1

end Value

namespace Atom

/-- The text that an atom is written as. -/
def written (a : Atom) : String :=
  match a.value with
  | .string text => "\"" ++ text ++ "\""
  | _ => a.render

theorem written_eq (a : Atom) : a.written = a.value.token.written := by
  obtain ⟨value, annotations⟩ := a
  cases value with
  | string text =>
    rw [String.ext_iff]
    simp [written, Value.token, Token.written, Token.spelling, Token.quotation]
  | none => exact String.ofList_toList.symm
  | complex z => exact String.ofList_toList.symm
  | number x => exact String.ofList_toList.symm
  | symbol text => exact String.ofList_toList.symm

/-! ## Reading joined tokens -/

theorem readAll_join (ts : List Token) (h : ∀ t ∈ ts, t.piece.Valid) :
    readAll (" ".intercalate (ts.map Token.written)) =
      placeAll (ts.zip (beginLines 1 (ts.map Token.written))) := by
  have htext : textTokens (ts.zip (beginLines 1 (ts.map Token.written))) =
      ts.zip (beginLines 1 (ts.map Token.written)) := by
    apply List.filter_eq_self.mpr
    intro p hp
    rw [Token.isDelimiter_of_valid_piece (h p.1 (List.of_mem_zip hp).1), Bool.not_false]
  rw [readAll_eq, tokenize_join ts h, Except.bind, htext]

/-- **Written atoms read back.** Atoms that can be written, one after another with single spaces
between them, are read as atoms with the same values in the same order, unless a line on which one
of them begins is too large; then the first such line is the error. -/
theorem readAll_written (as : List Atom) (h : ∀ a ∈ as, a.value.Writable) :
    ((∀ line ∈ beginLines 1 (as.map written), line ≤ maxExactWhole) →
      ∃ bs, readAll (" ".intercalate (as.map written)) = .ok bs ∧
        bs.map (fun b => b.value) = as.map fun a => a.value) ∧
    ∀ line, (beginLines 1 (as.map written)).find? (fun line => maxExactWhole < line) = some line →
      readAll (" ".intercalate (as.map written)) = .error (.lineTooLarge line) := by
  have htexts : as.map written = (as.map fun a => a.value.token).map Token.written := by
    rw [List.map_map]
    exact List.map_congr_left fun a _ => written_eq a
  have hvalid : ∀ t ∈ as.map fun a => a.value.token, t.piece.Valid :=
    List.forall_mem_map.mpr fun a ha => Value.valid_piece_token (h a ha)
  have hvalues : (as.map fun a => a.value.token).map Value.ofToken = as.map fun a => a.value := by
    rw [List.map_map]
    exact List.map_congr_left fun a ha => Value.ofToken_token (h a ha)
  rw [htexts, readAll_join _ hvalid, ← hvalues]
  generalize (as.map fun a => a.value.token) = ts
  have hlength := length_beginLines 1 (ts.map Token.written)
  rw [List.length_map] at hlength
  constructor
  · intro hlines
    refine ⟨_, (placeAll_eq_ok_iff _ _).mpr ⟨?_, rfl⟩, ?_⟩
    · intro p hp
      exact hlines p.2 (List.of_mem_zip hp).2
    · have hfst := List.map_fst_zip (Nat.le_of_eq hlength.symm)
      rw [← congrArg (List.map Value.ofToken) hfst, List.map_map, List.map_map]
      rfl
  · intro line hline
    refine (placeAll_eq_error_iff _ _).mpr ⟨line, ?_, rfl⟩
    rw [List.map_snd_zip (Nat.le_of_eq hlength)]
    exact hline

/-- A string may go over several lines. -/
theorem readAll_written_two_lines :
    ∃ bs, readAll "-0 \"a\nb\" c" = .ok bs ∧
      bs.map (fun b => b.value) = [.number (.ofRank true 0), .string "a\nb", .symbol "c"] := by
  have hwritable : ∀ a ∈ [ofNumber (.ofRank true 0), ofString "a\nb", ofSymbol "c"],
      a.value.Writable := by
    simp only [List.forall_mem_cons]
    refine ⟨rfl, ⟨by decide, rfl⟩, ⟨by decide, ?_, rfl⟩, List.forall_mem_nil _⟩
    exact (all_isWordChar_iff "c".toList).mp (by decide)
  have hlines : ∀ line ∈ beginLines 1
      ([ofNumber (.ofRank true 0), ofString "a\nb", ofSymbol "c"].map written),
      line ≤ maxExactWhole := by decide
  exact (readAll_written _ hwritable).1 hlines

end Atom

end AnnotatedAtoms
