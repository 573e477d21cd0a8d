import AnnotatedAtoms.Proofs.Lexeme.Tokenize
import AnnotatedAtoms.Reading

/-!
# Tokens and atoms

What reading a text does with its tokens. Parentheses are left out; of every other token an atom is
made, unless the line of some token is too large to be a number.

* `readAll_eq`: reading as a function of the tokens;
* `placeAll_eq_error_iff`: which line is refused;
* `readAll_eq_ok_iff`: the atoms that are read, where there are any.
-/

namespace AnnotatedAtoms.Atom

open Binary64 (maxExactWhole)

/-- The atom of a token, with its line as the only annotation. -/
def placed (t : Token) (line : Nat) : Atom :=
  ⟨.ofToken t, .cons lineName (above_none lineName) (ofNumber (.ofNat line)) .nil⟩

theorem ofTokenAt_eq (t : Token) (line : Nat) :
    ofTokenAt t line =
      if line ≤ maxExactWhole then .ok (placed t line) else .error (.lineTooLarge line) := by
  have hstored := annotate_lineKey (ofToken t) (ofNumber (.ofNat line))
  rw [ofTokenAt, Binary64.ofNatExact]
  split_ifs with hline
  · exact congrArg (Except.mapError ReadError.invalidKey) hstored
  · rfl

/-- The atoms of some tokens, or the first line among them that is too large. -/
def placeAll (ts : List (Token × Nat)) : Except ReadError (List Atom) :=
  match ts.find? fun p => maxExactWhole < p.2 with
  | none => .ok (ts.map fun p => placed p.1 p.2)
  | some p => .error (.lineTooLarge p.2)

theorem placeAll_cons (p : Token × Nat) (ts : List (Token × Nat)) :
    placeAll (p :: ts) =
      if p.2 ≤ maxExactWhole then (placeAll ts).map (placed p.1 p.2 :: ·)
      else .error (.lineTooLarge p.2) := by
  unfold placeAll
  split_ifs with hline
  · rw [List.find?_cons_of_neg (by simpa using hline)]
    cases ts.find? fun p => maxExactWhole < p.2 <;> rfl
  · rw [List.find?_cons_of_pos (by simpa using hline)]

theorem mapM_ofTokenAt (ts : List (Token × Nat)) :
    (ts.mapM fun p => ofTokenAt p.1 p.2) = placeAll ts := by
  induction ts with
  | nil => rfl
  | cons p ts ih =>
    rw [List.mapM_cons, ih, ofTokenAt_eq, placeAll_cons]
    split_ifs with hline
    · cases placeAll ts <;> rfl
    · rfl

/-- The tokens that are not parentheses. -/
def textTokens (ts : List (Token × Nat)) : List (Token × Nat) :=
  ts.filter fun p => !p.1.isDelimiter

theorem readAll_eq (source : String) :
    readAll source = (tokenize source).bind fun ts => placeAll (textTokens ts) := by
  rw [readAll]
  cases tokenize source with
  | error e => rfl
  | ok ts => exact mapM_ofTokenAt (textTokens ts)

theorem placeAll_eq_ok_iff (ts : List (Token × Nat)) (as : List Atom) :
    placeAll ts = .ok as ↔
      (∀ p ∈ ts, p.2 ≤ maxExactWhole) ∧ as = ts.map fun p => placed p.1 p.2 := by
  unfold placeAll
  split
  · rename_i h
    have hlines : ∀ p ∈ ts, p.2 ≤ maxExactWhole := by simpa using h
    constructor
    · intro e
      cases e
      exact ⟨hlines, rfl⟩
    · rintro ⟨-, rfl⟩
      rfl
  · rename_i p h
    constructor
    · intro e
      cases e
    · rintro ⟨hlines, -⟩
      have hle := hlines p (List.mem_of_find?_eq_some h)
      have hlt := List.find?_some h
      exact absurd hle (by simpa using hlt)

/-- The line in the error is the first that is too large. -/
theorem placeAll_eq_error_iff (ts : List (Token × Nat)) (e : ReadError) :
    placeAll ts = .error e ↔
      ∃ line, (ts.map Prod.snd).find? (fun line => maxExactWhole < line) = some line ∧
        e = .lineTooLarge line := by
  rw [List.find?_map]
  unfold placeAll
  constructor
  · intro h
    split at h
    · cases h
    · rename_i p hp
      cases h
      exact ⟨p.2, congrArg (Option.map Prod.snd) hp, rfl⟩
  · rintro ⟨line, hline, rfl⟩
    obtain ⟨p, hp, rfl⟩ := Option.map_eq_some_iff.mp hline
    split
    · rename_i h
      cases h.symm.trans hp
    · rename_i q h
      cases h.symm.trans hp
      rfl

theorem readAll_eq_ok_iff (source : String) (as : List Atom) :
    readAll source = .ok as ↔ ∃ ts, tokenize source = .ok ts ∧
      (∀ p ∈ textTokens ts, p.2 ≤ maxExactWhole) ∧
      as = (textTokens ts).map fun p => placed p.1 p.2 := by
  rw [readAll_eq]
  simp only [← placeAll_eq_ok_iff]
  cases tokenize source with
  | error e => simp [Except.bind]
  | ok ts => simp [Except.bind]

end AnnotatedAtoms.Atom
