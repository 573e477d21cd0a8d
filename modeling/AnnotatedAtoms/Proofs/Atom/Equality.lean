import AnnotatedAtoms.Proofs.Binary64.Exact
import AnnotatedAtoms.Proofs.Binary64.Tolerance
import AnnotatedAtoms.Proofs.Reading.Image
import Mathlib.Data.List.Forall2

/-!
# Equality of atoms

Equality is symmetric. It fails to be reflexive only where a value has a part that is not a finite
number, and no such value is ever read from a text.

* `Value.approxEq_comm`, `Value.approxEq_self_iff`: the laws of equality, for values;
* `Atom.approxEq_laws`: the same for atoms, and for all that are read.
-/

namespace AnnotatedAtoms

theorem Complex.approxEq_comm (z w : Complex) : z.approxEq w = w.approxEq z := by
  rw [approxEq, approxEq, z.re.approxEq_comm, z.im.approxEq_comm]

theorem Complex.approxEq_self_iff (z : Complex) :
    z.approxEq z = true ↔ z.re.isFinite = true ∧ z.im.isFinite = true := by
  rw [approxEq, Bool.and_eq_true, Binary64.approxEq_self_iff, Binary64.approxEq_self_iff]

namespace Value

/-- The numbers that a value is made of. -/
def parts : Value → List Binary64
  | .number x => [x]
  | .complex z => [z.re, z.im]
  | .none | .symbol _ | .string _ => []

theorem approxEq_comm (v w : Value) : v.approxEq w = w.approxEq v := by
  cases v with
  | none => cases w <;> rfl
  | number x =>
    cases w with
    | number y => exact x.approxEq_comm y
    | _ => rfl
  | complex z =>
    cases w with
    | complex w => exact z.approxEq_comm w
    | _ => rfl
  | symbol s =>
    cases w with
    | symbol t => exact Bool.decide_congr eq_comm
    | _ => rfl
  | string s =>
    cases w with
    | string t => exact Bool.decide_congr eq_comm
    | _ => rfl

theorem approxEq_self_iff (v : Value) :
    v.approxEq v = true ↔ ∀ x ∈ v.parts, x.isFinite = true := by
  cases v with
  | none => simp [approxEq, parts]
  | number x => simpa [approxEq, parts] using x.approxEq_self_iff
  | complex z => simpa [approxEq, parts] using z.approxEq_self_iff
  | symbol text => simp [approxEq, parts]
  | string text => simp [approxEq, parts]

theorem isFinite_of_readable {v : Value} (h : v.Readable) : ∀ x ∈ v.parts, x.isFinite = true := by
  cases v with
  | number x => exact List.forall_mem_singleton.mpr h
  | complex z => cases h
  | none => exact List.forall_mem_nil _
  | symbol text => exact List.forall_mem_nil _
  | string text => exact List.forall_mem_nil _

end Value

namespace Atom

theorem approxEq_self_of_mem_readAll {source : String} {as : List Atom}
    (h : readAll source = .ok as) {a : Atom} (ha : a ∈ as) : a.approxEq a = true :=
  a.value.approxEq_self_iff.mpr (Value.isFinite_of_readable (readable_of_mem_readAll h a ha))

/-- The only annotation is a line, and that is a finite number. -/
theorem approxEq_self_of_mem_annotations {source : String} {as : List Atom}
    (h : readAll source = .ok as) {a : Atom} (ha : a ∈ as) :
    ∀ p ∈ a.annotations.toList, p.2.approxEq p.2 = true := by
  obtain ⟨ts, -, hlines, rfl⟩ := (readAll_eq_ok_iff source as).mp h
  obtain ⟨q, hq, rfl⟩ := List.mem_map.mp ha
  have hfinite := Binary64.isFinite_of_toRat? (Binary64.toRat?_ofNat (hlines q hq))
  exact List.forall_mem_singleton.mpr ((Binary64.approxEq_self_iff _).mpr hfinite)

/-- **Equality.** It is symmetric, and an atom is equal to itself exactly when no part of its value
is not-a-number or an infinity. Every atom that is read is equal to itself, and so is every
annotation of it; so the atoms that are read from a text twice are equal one by one. -/
theorem approxEq_laws :
    (∀ a b : Atom, a.approxEq b = b.approxEq a) ∧
    (∀ a : Atom, a.approxEq a = true ↔
      ∀ x ∈ a.value.parts, x ≠ .nan ∧ ∀ negative, x ≠ .infinite negative) ∧
    ∀ source as, readAll source = .ok as →
      (∀ a ∈ as, a.approxEq a = true ∧ ∀ p ∈ a.annotations.toList, p.2.approxEq p.2 = true) ∧
      ∀ bs, readAll source = .ok bs → List.Forall₂ (fun a b => a.approxEq b = true) as bs := by
  refine ⟨fun a b => a.value.approxEq_comm b.value, ?_, ?_⟩
  · intro a
    simp only [← Binary64.isFinite_iff]
    exact a.value.approxEq_self_iff
  · intro source as h
    refine ⟨fun a ha => ⟨approxEq_self_of_mem_readAll h ha, approxEq_self_of_mem_annotations h ha⟩,
      ?_⟩
    intro bs hbs
    cases h.symm.trans hbs
    exact List.forall₂_same.mpr fun a ha => approxEq_self_of_mem_readAll h ha

/-- What looks like a number that is not finite is read as a text, and is equal to itself. -/
theorem approxEq_laws_spelled_out :
    ∃ as, readAll "inf \"NaN\" 1x" = .ok as ∧
      (as.map fun a => a.value) = [.symbol "inf", .string "NaN", .none] ∧
      List.Forall₂ (fun a b => a.approxEq b = true) as as := by
  have htokens : tokenize "inf \"NaN\" 1x" =
      .ok [(.bare "inf", 1), (.quotation "NaN", 1), (.bare "1x", 1)] := by cbv
  have hread := (readAll_eq_ok_iff "inf \"NaN\" 1x" _).mpr ⟨_, htokens, by decide, rfl⟩
  exact ⟨_, hread, by decide, (approxEq_laws.2.2 _ _ hread).2 _ hread⟩

end Atom

end AnnotatedAtoms
