import AnnotatedAtoms.Proofs.Reading.Written

/-!
# What can be read

The values that some text is read as: no value, every value that can be written, and nothing else.

* `readable_iff`: the readable values by the way they are written;
* `readAll_image`: they are the values of the atoms that are read.
-/

namespace AnnotatedAtoms

open Literal

namespace Value

/-- The values that reading can give. No complex number is among them, no number that is not finite
and no text that begins like a number. -/
def Readable : Value → Prop
  | .none => True
  | .number x => x.isFinite = true
  | .complex _ => False
  | .symbol text =>
    text ≠ "" ∧ (∀ c ∈ text.toList, c ∉ specialChars) ∧ ¬ StartsNumeric text.toList
  | .string text => '"' ∉ text.toList ∧ ¬ StartsNumeric text.toList

theorem readable_iff (v : Value) : v.Readable ↔ v = .none ∨ v.Writable := by
  cases v with
  | none => simp [Readable]
  | number x => simp [Readable, Writable]
  | complex z => simp [Readable, Writable]
  | symbol text => simp [Readable, Writable, ← opens_iff]
  | string text => simp [Readable, Writable, ← opens_iff]

/-- A token that could be cut from a text has a readable value. -/
theorem readable_ofToken {t : Token} (h : t.piece.Valid) : (ofToken t).Readable := by
  rcases classes t with ⟨x, hread⟩ | ⟨hopens, hread⟩ | hopens
  · rw [ofToken_of_read? hread]
    exact read?_isFinite hread
  · rw [ofToken_malformed hopens hread]
    trivial
  · have hnumeric : ¬ StartsNumeric t.text.toList := by
      rw [← opens_iff, hopens]
      exact Bool.false_ne_true
    rw [ofToken_of_not_opens hopens]
    rw [Token.valid_piece_iff] at h
    split_ifs at h ⊢ with hquoted
    · exact ⟨h, hnumeric⟩
    · exact ⟨fun hempty => h.1 (String.toList_eq_nil_iff.mpr hempty), h.2, hnumeric⟩

end Value

namespace Atom

/-- Every token that is read could be cut from a text. -/
theorem valid_piece_of_mem_textTokens {source : String} {ts : List (Token × Nat)}
    (h : tokenize source = .ok ts) : ∀ p ∈ textTokens ts, p.1.piece.Valid := by
  intro p hp
  obtain ⟨hmem, hd⟩ := List.mem_filter.mp hp
  obtain ⟨-, rfl⟩ := (tokenize_eq_ok_iff source ts).mp h
  have hfst := List.mem_map_of_mem (f := Prod.fst) hmem
  rw [Lexeme.map_fst_tokens] at hfst
  obtain ⟨l, hl, ht⟩ := List.mem_filterMap.mp hfst
  exact Token.valid_piece_of_token? (Lexeme.valid_of_mem_cut hl) ht (by simpa using hd)

/-- A token that could be cut from a text is all that is read from its own text. -/
theorem readAll_token {t : Token} (h : t.piece.Valid) :
    readAll t.written = .ok [placed t 1] := by
  have hread := readAll_join [t] (List.forall_mem_singleton.mpr h)
  rw [List.map_singleton, String.intercalate_singleton] at hread
  exact hread

theorem readable_of_mem_readAll {source : String} {as : List Atom}
    (h : readAll source = .ok as) : ∀ a ∈ as, a.value.Readable := by
  obtain ⟨ts, hts, -, rfl⟩ := (readAll_eq_ok_iff source as).mp h
  intro a ha
  obtain ⟨p, hp, rfl⟩ := List.mem_map.mp ha
  exact Value.readable_ofToken (valid_piece_of_mem_textTokens hts p hp)

theorem exists_readAll_of_readable (v : Value) (h : v.Readable) :
    ∃ source a, readAll source = .ok [a] ∧ a.value = v := by
  rcases (Value.readable_iff v).mp h with rfl | hwritable
  · -- A malformed number has no value.
    have hvalid : (Token.bare "1x").piece.Valid :=
      ⟨by decide, (all_isWordChar_iff "1x".toList).mp (by decide)⟩
    exact ⟨_, _, readAll_token hvalid, by decide⟩
  · have hvalid := Value.valid_piece_token hwritable
    exact ⟨_, _, readAll_token hvalid, Value.ofToken_token hwritable⟩

/-- **What can be read.** The atoms of a text have readable values only, and every readable value
is that of the only atom of some text. -/
theorem readAll_image :
    (∀ source as, readAll source = .ok as → ∀ a ∈ as, a.value.Readable) ∧
    ∀ v : Value, v.Readable → ∃ source a, readAll source = .ok [a] ∧ a.value = v :=
  ⟨fun _ _ h => readable_of_mem_readAll h, exists_readAll_of_readable⟩

/-- A malformed number is read as no value, and a string may hold what ends a word. -/
theorem readAll_image_malformed :
    (∃ as, readAll "1x (-2 \"a; b\")" = .ok as ∧ as.length = 3 ∧ ∀ a ∈ as, a.value.Readable) ∧
    (Value.string "(;\n)").Readable ∧
    ∃ source a, readAll source = .ok [a] ∧ a.value = .string "(;\n)" := by
  have htokens : tokenize "1x (-2 \"a; b\")" =
      .ok [(.bare "1x", 1), (.bare "(", 1), (.bare "-2", 1), (.quotation "a; b", 1),
        (.bare ")", 1)] := by cbv
  have hread := (readAll_eq_ok_iff "1x (-2 \"a; b\")" _).mpr ⟨_, htokens, by decide, rfl⟩
  have hstring : (Value.string "(;\n)").Readable := by
    rw [Value.Readable, ← opens_iff]
    decide
  obtain ⟨hsound, hcomplete⟩ := readAll_image
  exact ⟨⟨_, hread, rfl, hsound _ _ hread⟩, hstring, hcomplete _ hstring⟩

end Atom

end AnnotatedAtoms
