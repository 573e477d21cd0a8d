import AnnotatedAtoms.Atom.Edit
import Mathlib.Data.List.Forall2

/-!
# Atoms with the same value

Annotations are seen by those who ask for them and by nobody else. Two atoms with the same value
answer all other questions alike, are equal to the same atoms, and name the same annotations of
every other atom. Edits that differ only in what is annotated keep them so.

* `Atom.alike_of_value`, `Atom.value_of_alike`: what is seen of an atom besides its annotations is
  its value;
* `Edit.step_alike`: one edit of each of them;
* `Edit.seen_alike`: any number of edits;
* `Atom.annotations_unseen`: the answers, and what is seen of the edits.
-/

namespace AnnotatedAtoms

/-! ## Questions -/

/-- All questions about two atoms have the same answers, except those about their annotations. -/
structure Atom.Alike (a b : Atom) : Prop where
  kind : a.kind = b.kind
  isNone : a.isNone = b.isNone
  isNumber : a.isNumber = b.isNumber
  isComplex : a.isComplex = b.isComplex
  isSymbol : a.isSymbol = b.isSymbol
  isString : a.isString = b.isString
  number? : a.number? = b.number?
  complex? : a.complex? = b.complex?
  symbol? : a.symbol? = b.symbol?
  string? : a.string? = b.string?
  numberOrZero : a.numberOrZero = b.numberOrZero
  complexOrZero : a.complexOrZero = b.complexOrZero
  symbolOrEmpty : a.symbolOrEmpty = b.symbolOrEmpty
  stringOrEmpty : a.stringOrEmpty = b.stringOrEmpty
  render : a.render = b.render
  approxEq_left : ∀ c, a.approxEq c = b.approxEq c
  approxEq_right : ∀ c : Atom, c.approxEq a = c.approxEq b
  has : ∀ c : Atom, c.has a = c.has b
  get : ∀ c : Atom, c.get a = c.get b
  annotate : ∀ c new : Atom, c.annotate a new = c.annotate b new

namespace Atom

variable {a b : Atom}

theorem alike_of_value (h : a.value = b.value) : a.Alike b := by
  obtain ⟨v, m⟩ := a
  obtain ⟨w, n⟩ := b
  cases h
  -- No answer looks at the annotations, where the two still differ.
  constructor <;> intros <;> rfl

/-- The kind of a value and its parts are the whole of it. -/
theorem value_of_alike (h : a.Alike b) : a.value = b.value := by
  obtain ⟨v, m⟩ := a
  obtain ⟨w, n⟩ := b
  have hkind : v.kind = w.kind := h.kind
  cases v with
  | none => cases w <;> first | rfl | cases hkind
  | number x =>
    cases w with
    | number y => exact congrArg Value.number (Option.some.inj h.number?)
    | _ => cases hkind
  | complex z =>
    cases w with
    | complex w => exact congrArg Value.complex (Option.some.inj h.complex?)
    | _ => cases hkind
  | symbol text =>
    cases w with
    | symbol text' => exact congrArg Value.symbol (Option.some.inj h.symbol?)
    | _ => cases hkind
  | string text =>
    cases w with
    | string text' => exact congrArg Value.string (Option.some.inj h.string?)
    | _ => cases hkind

end Atom

/-! ## Edits -/

namespace Edit

/-- The same setters, and annotations under keys with the same value. What is stored under them
need not be the same. -/
inductive Alike : Edit → Edit → Prop where
  | setNumber (x : Binary64) : Alike (.setNumber x) (.setNumber x)
  | setComplex (z : Complex) : Alike (.setComplex z) (.setComplex z)
  | setSymbol (text : String) : Alike (.setSymbol text) (.setSymbol text)
  | setString (text : String) : Alike (.setString text) (.setString text)
  | annotate {key key' : Atom} (h : key.value = key'.value) (new new' : Atom) :
      Alike (.annotate key new) (.annotate key' new')

theorem Alike.refl (e : Edit) : e.Alike e := by
  cases e <;> constructor
  rfl

def refusal? (a : Atom) (e : Edit) : Option InvalidKey :=
  match e.apply a with
  | .ok _ => none
  | .error k => some k

/-- What is seen of some edits besides the annotations: after each of them, whether and why it was
refused, and the value. -/
def seen (a : Atom) : List Edit → List (Option InvalidKey × Value)
  | [] => []
  | e :: es => (refusal? a e, (applyOrKeep a e).value) :: seen (applyOrKeep a e) es

variable {a b : Atom}

theorem map_value_apply_alike (h : a.value = b.value) {e f : Edit} (hef : e.Alike f) :
    (e.apply a).map Atom.value = (f.apply b).map Atom.value := by
  cases hef with
  | setNumber x => rfl
  | setComplex z => rfl
  | setSymbol text => rfl
  | setString text => rfl
  | @annotate key key' hkey new new' =>
    have hkeys := Atom.alike_of_value hkey
    cases hname : key.string? with
    | some name =>
      have hname' : key'.string? = some name := hkeys.string? ▸ hname
      simp only [apply, Atom.annotate, hname, hname', Except.map, h]
    | none =>
      have hname' : key'.string? = none := hkeys.string? ▸ hname
      simp only [apply, Atom.annotate, hname, hname', Except.map, hkeys.kind]

theorem step_alike (h : a.value = b.value) {e f : Edit} (hef : e.Alike f) :
    refusal? a e = refusal? b f ∧ (applyOrKeep a e).value = (applyOrKeep b f).value := by
  have hmap := map_value_apply_alike h hef
  rw [refusal?, refusal?, applyOrKeep, applyOrKeep]
  cases he : e.apply a with
  | ok c =>
    cases hf : f.apply b with
    | ok d =>
      rw [he, hf] at hmap
      exact ⟨rfl, Except.ok.inj hmap⟩
    | error k =>
      rw [he, hf] at hmap
      cases hmap
  | error k =>
    cases hf : f.apply b with
    | ok d =>
      rw [he, hf] at hmap
      cases hmap
    | error l =>
      rw [he, hf] at hmap
      exact ⟨congrArg some (Except.error.inj hmap), h⟩

theorem seen_alike (h : a.value = b.value) {es fs : List Edit}
    (hef : List.Forall₂ Alike es fs) : seen a es = seen b fs := by
  induction hef generalizing a b with
  | nil => rfl
  | cons hstep _ ih =>
    obtain ⟨hrefusal, hvalue⟩ := step_alike h hstep
    rw [seen, seen, hrefusal, hvalue, ih hvalue]

end Edit

/-- **Annotations are not seen.** Whatever the annotations of two atoms are, all questions but those
about their annotations have the same answers exactly when the values are the same. Then the same
edits of both are accepted or refused alike, for the same reasons, and leave the same values behind
after every step; so do edits in which the keys and the atoms that are stored are annotated
differently. -/
theorem Atom.annotations_unseen (a b : Atom) :
    (a.Alike b ↔ a.value = b.value) ∧
    (a.value = b.value → (∀ es, Edit.seen a es = Edit.seen b es) ∧
      ∀ es fs, List.Forall₂ Edit.Alike es fs → Edit.seen a es = Edit.seen b fs) := by
  refine ⟨⟨value_of_alike, alike_of_value⟩, ?_⟩
  intro h
  have hseen : ∀ es fs, List.Forall₂ Edit.Alike es fs → Edit.seen a es = Edit.seen b fs :=
    fun es fs => Edit.seen_alike h
  refine ⟨?_, hseen⟩
  intro es
  exact hseen es es (List.forall₂_same.mpr fun e _ => .refl e)

/-- An atom whose annotation is annotated is a key like the one without annotations. -/
theorem Atom.annotations_unseen_nested :
    let plain := Atom.ofString "key"
    let marked : Atom := ⟨.string "key", .cons "line" (above_none "line") plain .nil⟩
    let nested : Atom := ⟨.string "key", .cons "mark" (above_none "mark") marked .nil⟩
    nested.Alike plain ∧
    Edit.seen nested [.annotate (ofSymbol "key") marked, .setNumber .zero, .annotate nested plain] =
      Edit.seen plain [.annotate (ofSymbol "key") plain, .setNumber .zero, .annotate plain nested] ∧
    Edit.seen plain [.annotate (ofSymbol "key") plain, .setNumber .zero, .annotate plain nested] =
      [(some ⟨.symbol⟩, .string "key"), (none, .number .zero), (none, .number .zero)] := by
  intro plain marked nested
  have hkey : nested.value = plain.value := rfl
  obtain ⟨halike, hruns⟩ := annotations_unseen nested plain
  have hedits : List.Forall₂ Edit.Alike
      [.annotate (ofSymbol "key") marked, .setNumber .zero, .annotate nested plain]
      [.annotate (ofSymbol "key") plain, .setNumber .zero, .annotate plain nested] :=
    .cons (.annotate rfl _ _) (.cons (.setNumber _) (.cons (.annotate hkey _ _) .nil))
  exact ⟨halike.mpr hkey, (hruns hkey).2 _ _ hedits, rfl⟩

end AnnotatedAtoms
