import AnnotatedAtoms.Proofs.Binary64.Word
import AnnotatedAtoms.Proofs.Decimal.Signs
import AnnotatedAtoms.Value

/-!
# Unambiguous texts of numbers

The sign between the two parts of a complex number is found again in its text, and with it both
parts. What holds nothing, a number and a complex number are told apart by the end of their texts.

* `Complex.chars_eq_iff`: the parts of the text of a complex number;
* `Payload.kind_of_render`: the kind of a value, read from its text;
* `Payload.render_unambiguous`: payloads with the same text are the same, bit for bit.
-/

namespace AnnotatedAtoms

/-! ## The parts of a complex number -/

namespace Binary64

/-- A number is its magnitude and its sign. -/
theorem ext_abs {x y : Binary64} (habs : x.abs = y.abs) (hsign : x.isNegative = y.isNegative) :
    x = y := by
  cases x <;> cases y <;> simp_all [abs, isNegative]

end Binary64

namespace Complex

/-- The sign between the two parts. -/
def sign (z : Complex) : Char := if z.im.isNegative then '-' else '+'

theorem isSign_sign (z : Complex) : IsSign z.sign := by
  rw [sign]
  split_ifs
  · exact .inr rfl
  · exact .inl rfl

theorem sign_eq_iff {z w : Complex} : z.sign = w.sign ↔ z.im.isNegative = w.im.isNegative := by
  rw [sign, sign]
  cases z.im.isNegative <;> cases w.im.isNegative <;> decide

theorem chars_eq (z : Complex) : z.chars = z.re.chars ++ z.sign :: (z.im.abs.chars ++ ['i']) := by
  rw [chars, sign, List.append_assoc, List.cons_append]

/-- The text of a complex number has no other parts than those that it was made of. -/
theorem chars_eq_iff (z : Complex) (x y : Binary64) (c : Char) :
    z.chars = x.chars ++ c :: (y.abs.chars ++ ['i']) ↔
      x = z.re ∧ c = z.sign ∧ y.abs = z.im.abs := by
  rw [chars_eq]
  constructor
  · intro h
    have hi : ∀ a ∈ ['i'].head?, ¬ IsSign a := by simp [IsSign]
    have himaginary : MarksSigns (y.abs.chars ++ ['i']) :=
      y.isUnsignedText_chars_abs.marksSigns.append (List.isChain_singleton _) hi
    have hhead : ∀ a ∈ (y.abs.chars ++ ['i']).head?, ¬ IsSign a := by
      rw [List.head?_append_of_ne_nil _ y.isUnsignedText_chars_abs.nonempty]
      exact y.isUnsignedText_chars_abs.first
    obtain ⟨hre, hsign, him⟩ := split_at_sign x.isNumberText_chars z.re.isNumberText_chars
      himaginary hhead z.isSign_sign h.symm
    exact ⟨Binary64.chars_injective hre, hsign,
      Binary64.chars_injective (List.append_cancel_right him)⟩
  · rintro ⟨rfl, rfl, habs⟩
    rw [habs]

theorem chars_injective : Function.Injective chars := by
  intro z w h
  rw [w.chars_eq] at h
  obtain ⟨hre, hsign, habs⟩ := (z.chars_eq_iff w.re w.im w.sign).mp h
  have him : w.im = z.im := Binary64.ext_abs habs (sign_eq_iff.mp hsign)
  obtain ⟨re, im⟩ := z
  obtain ⟨re', im'⟩ := w
  cases hre
  cases him
  rfl

end Complex

/-! ## Payloads -/

/-- A value that is neither a symbol nor a string, with the words of its numbers. -/
inductive Payload where
  | none
  | number (x : UInt64)
  | complex (re im : UInt64)
  deriving DecidableEq

namespace Payload

open Binary64

def value : Payload → Value
  | .none => .none
  | .number x => .number (.ofWord x)
  | .complex re im => .complex ⟨.ofWord re, .ofWord im⟩

/-- The same kind and the same floats, one by one. -/
inductive Same : Payload → Payload → Prop where
  | none : Same .none .none
  | number {x y : UInt64} (h : SameFloat x y) : Same (.number x) (.number y)
  | complex {re re' im im' : UInt64} (hre : SameFloat re re') (him : SameFloat im im') :
      Same (.complex re im) (.complex re' im')

theorem value_eq_iff {v w : Payload} : v.value = w.value ↔ v.Same w := by
  constructor
  · intro h
    cases v <;> cases w <;> simp only [value, reduceCtorEq, Value.number.injEq,
      Value.complex.injEq, Complex.mk.injEq, ofWord_eq_ofWord_iff] at h
    · exact .none
    · exact .number h
    · exact .complex h.1 h.2
  · intro h
    cases h with
    | none => rfl
    | number h => rw [value, value, ofWord_eq_ofWord_iff.mpr h]
    | complex hre him =>
      rw [value, value, ofWord_eq_ofWord_iff.mpr hre, ofWord_eq_ofWord_iff.mpr him]

/-- The kind of a value without text of its own, read from the end of what is shown. -/
def kindOfEnd (last : Option Char) : Kind :=
  if last = some 'E' then .none else if last = some 'i' then .complex else .number

theorem kind_of_render (v : Payload) : kindOfEnd v.value.render.toList.getLast? = v.value.kind := by
  cases v with
  | none => rfl
  | number x =>
    have htext := (ofWord x).isNumberText_chars
    have hlast : (ofWord x).chars.getLast? = some ((ofWord x).chars.getLast htext.nonempty) :=
      List.getLast?_eq_some_getLast htext.nonempty
    rw [value, Value.render, Binary64.render, String.toList_ofList, kindOfEnd]
    have hne : ∀ c ∈ ['E', 'i'], (ofWord x).chars.getLast? ≠ some c := by
      intro c hc h
      have hends := htext.last c h
      simp only [List.mem_cons, List.not_mem_nil, or_false] at hc
      rcases hc with rfl | rfl <;> exact absurd hends (by decide)
    rw [if_neg (hne 'E' (by simp)), if_neg (hne 'i' (by simp))]
    rfl
  | complex re im =>
    rw [value, Value.render, Complex.render, String.toList_ofList, Complex.chars,
      List.getLast?_concat]
    rfl

/-- What is shown of a value without text of its own determines it. -/
theorem value_eq_of_render_eq {v w : Payload} (h : v.value.render = w.value.render) :
    v.value = w.value := by
  have hkind : v.value.kind = w.value.kind := by
    rw [← kind_of_render, ← kind_of_render, h]
  cases v <;> cases w <;> cases hkind
  · rfl
  · exact congrArg Value.number (chars_injective (String.ofList_injective h))
  · exact congrArg Value.complex (Complex.chars_injective (String.ofList_injective h))

/-- **What is shown of numbers is unambiguous.** Two payloads have the same text exactly if they
have the same kind and the same floats. The text of a complex number has one place only where it
divides into a number, a character and an unsigned number in front of the final letter. -/
theorem render_unambiguous :
    (∀ v w : Payload, v.value.render = w.value.render ↔ v.Same w) ∧
      ∀ (z : Complex) (x y : Binary64) (c : Char),
        z.render.toList = x.chars ++ c :: (y.abs.chars ++ ['i']) ↔
          x = z.re ∧ c = z.sign ∧ y.abs = z.im.abs := by
  constructor
  · intro v w
    rw [← value_eq_iff]
    exact ⟨value_eq_of_render_eq, fun h => by rw [h]⟩
  · intro z x y c
    rw [Complex.render, String.toList_ofList]
    exact z.chars_eq_iff x y c

/-- Both signs of zero are shown in both parts. -/
example : (complex 0x8000000000000000 0x8000000000000000).value.render = "-0-0i" := by decide

end Payload

end AnnotatedAtoms
