import AnnotatedAtoms.Atom.Edit
import AnnotatedAtoms.Proofs.Annotations

/-!
# Atoms as values with finite maps

To whoever can only edit an atom and ask for its parts, it is a value and a finite map from texts to
atoms. Setting a value replaces the value; annotating under a string overwrites one entry of the
map, and under any other key it is refused and changes nothing.

* `toAbstract_apply`, `toAbstract_run`: one edit, and any number of edits;
* `shows_toAbstract`: what the questions about an atom answer;
* `AbstractAtom.value_run`, `AbstractAtom.lookup_run`: the last write wins;
* `run_shows_map`: the answers after any edits.
-/

namespace AnnotatedAtoms

/-- A value, and a finite map from texts to atoms. -/
structure AbstractAtom where
  value : Value
  entries : Finmap fun _ : String => Atom

namespace AbstractAtom

def apply (r : AbstractAtom) : Edit → Except InvalidKey AbstractAtom
  | .setNumber x => .ok { r with value := .number x }
  | .setComplex z => .ok { r with value := .complex z }
  | .setSymbol text => .ok { r with value := .symbol text }
  | .setString text => .ok { r with value := .string text }
  | .annotate key new =>
    match key.value with
    | .string name => .ok { r with entries := r.entries.insert name new }
    | other => .error ⟨other.kind⟩

def applyOrKeep (r : AbstractAtom) (e : Edit) : AbstractAtom :=
  match r.apply e with
  | .ok s => s
  | .error _ => r

def run (r : AbstractAtom) (es : List Edit) : AbstractAtom := es.foldl applyOrKeep r

variable {key : Atom} (r : AbstractAtom) (new : Atom)

theorem apply_annotate_string {name : String} (h : key.value = .string name) :
    r.apply (.annotate key new) = .ok { r with entries := r.entries.insert name new } := by
  simp only [apply, h]

theorem apply_annotate_other (h : ∀ name, key.value ≠ .string name) :
    r.apply (.annotate key new) = .error ⟨key.kind⟩ := by
  rw [apply]
  split
  · rename_i name hname
    exact absurd hname (h name)
  · rfl

theorem applyOrKeep_annotate_string {name : String} (h : key.value = .string name) :
    r.applyOrKeep (.annotate key new) = { r with entries := r.entries.insert name new } := by
  rw [applyOrKeep, apply_annotate_string r new h]

theorem applyOrKeep_annotate_other (h : ∀ name, key.value ≠ .string name) :
    r.applyOrKeep (.annotate key new) = r := by
  rw [applyOrKeep, apply_annotate_other r new h]

end AbstractAtom

namespace Atom

theorem string?_eq_some_iff (a : Atom) (text : String) :
    a.string? = some text ↔ a.value = .string text := by
  obtain ⟨value, annotations⟩ := a
  cases value <;> simp [string?, Value.string?]

/-- A key that is no string names nothing. -/
theorem string?_eq_none_iff (a : Atom) :
    a.string? = none ↔ ∀ name, a.value ≠ .string name := by
  simp only [Option.eq_none_iff_forall_ne_some, ne_eq, string?_eq_some_iff]

end Atom

/-! ## Edits -/

def Atom.toAbstract (a : Atom) : AbstractAtom := ⟨a.value, a.annotations.entries⟩

namespace Edit

/-- An edit is accepted or refused alike, for the same reason, and does the same to the map. -/
theorem toAbstract_apply (a : Atom) (e : Edit) :
    (e.apply a).map Atom.toAbstract = a.toAbstract.apply e := by
  cases e with
  | setNumber x => rfl
  | setComplex z => rfl
  | setSymbol text => rfl
  | setString text => rfl
  | annotate key new =>
    cases hname : key.string? with
    | some name =>
      have hentries := a.annotations.entries_insert name new (above_none name)
      rw [AbstractAtom.apply_annotate_string _ new ((key.string?_eq_some_iff name).mp hname)]
      simp only [apply, Atom.annotate, hname, Except.map, Atom.toAbstract, hentries]
    | none =>
      rw [AbstractAtom.apply_annotate_other _ new (key.string?_eq_none_iff.mp hname)]
      simp only [apply, Atom.annotate, hname, Except.map]

theorem toAbstract_applyOrKeep (a : Atom) (e : Edit) :
    (applyOrKeep a e).toAbstract = a.toAbstract.applyOrKeep e := by
  rw [applyOrKeep, AbstractAtom.applyOrKeep, ← toAbstract_apply]
  cases e.apply a <;> rfl

theorem toAbstract_run (a : Atom) (es : List Edit) :
    (run a es).toAbstract = a.toAbstract.run es := by
  induction es generalizing a with
  | nil => rfl
  | cons e es ih =>
    have hrest := ih (applyOrKeep a e)
    rwa [toAbstract_applyOrKeep] at hrest

end Edit

/-! ## Questions -/

/-- Every question about an atom is answered by a value and a finite map. -/
structure Atom.Shows (a : Atom) (r : AbstractAtom) : Prop where
  value : a.value = r.value
  has : ∀ key, a.has key = true ↔ ∃ name, key.value = .string name ∧ name ∈ r.entries
  get_string : ∀ key name, key.value = .string name →
    a.get key = (r.entries.lookup name).getD .empty
  get_other : ∀ key, (∀ name, key.value ≠ .string name) → a.get key = .empty
  size : a.annotations.size = r.entries.keys.card
  listed : ∀ name v, (name, v) ∈ a.annotations.toList ↔ r.entries.lookup name = some v
  sorted : (a.annotations.toList.map Prod.fst).Pairwise fun s t => keyBytes s < keyBytes t

namespace Atom

theorem has_iff (a key : Atom) :
    a.has key = true ↔ ∃ name, key.value = .string name ∧ name ∈ a.annotations.entries := by
  simp only [← string?_eq_some_iff, Finmap.mem_iff, Annotations.lookup_entries]
  cases hname : key.string? with
  | none => simp [has, hname]
  | some name => simp [has, hname, Option.isSome_iff_exists]

theorem shows_toAbstract (a : Atom) : a.Shows a.toAbstract where
  value := rfl
  has := a.has_iff
  get_string key name h := by
    rw [← string?_eq_some_iff] at h
    simp only [get, h, toAbstract, Annotations.lookup_entries]
  get_other key h := by
    simp only [get, key.string?_eq_none_iff.mpr h]
  size := a.annotations.card_keys_entries.symm
  listed name v := by
    rw [Annotations.mem_toList_iff, toAbstract, Annotations.lookup_entries]
  sorted := a.annotations.pairwise_toList

end Atom

/-! ## The last write wins -/

namespace Edit

/-- The value that an edit sets. -/
def value? : Edit → Option Value
  | setNumber x => some (.number x)
  | setComplex z => some (.complex z)
  | setSymbol text => some (.symbol text)
  | setString text => some (.string text)
  | annotate _ _ => none

/-- The atom that an edit stores under a name. -/
def stored? (name : String) : Edit → Option Atom
  | annotate key new => if key.value = .string name then some new else none
  | setNumber _ | setComplex _ | setSymbol _ | setString _ => none

end Edit

namespace AbstractAtom

theorem value_applyOrKeep (r : AbstractAtom) (e : Edit) :
    (r.applyOrKeep e).value = e.value?.getD r.value := by
  cases e with
  | annotate key new =>
    by_cases h : ∃ name, key.value = .string name
    · obtain ⟨name, hname⟩ := h
      rw [applyOrKeep_annotate_string r new hname]
      rfl
    · rw [applyOrKeep_annotate_other r new (not_exists.mp h)]
      rfl
  | setNumber x => rfl
  | setComplex z => rfl
  | setSymbol text => rfl
  | setString text => rfl

theorem lookup_applyOrKeep (r : AbstractAtom) (e : Edit) (name : String) :
    (r.applyOrKeep e).entries.lookup name = (e.stored? name).or (r.entries.lookup name) := by
  cases e with
  | annotate key new =>
    rw [Edit.stored?]
    by_cases h : ∃ other, key.value = .string other
    · obtain ⟨other, hother⟩ := h
      rw [applyOrKeep_annotate_string r new hother, hother]
      by_cases hname : other = name
      · rw [hname, if_pos rfl, Finmap.lookup_insert, Option.some_or]
      · rw [if_neg (by simpa using hname), Option.none_or,
          Finmap.lookup_insert_of_ne _ (Ne.symm hname)]
    · rw [applyOrKeep_annotate_other r new (not_exists.mp h), if_neg (not_exists.mp h name),
        Option.none_or]
  | setNumber x => rfl
  | setComplex z => rfl
  | setSymbol text => rfl
  | setString text => rfl

theorem value_run (r : AbstractAtom) (es : List Edit) :
    (r.run es).value = (es.filterMap Edit.value?).getLast?.getD r.value := by
  induction es generalizing r with
  | nil => rfl
  | cons e es ih =>
    have hrest := ih (r.applyOrKeep e)
    rw [value_applyOrKeep] at hrest
    rw [List.filterMap_cons]
    cases hvalue : e.value? with
    | none => rwa [hvalue] at hrest
    | some v =>
      rw [hvalue] at hrest
      rwa [List.getLast?_cons]

theorem lookup_run (r : AbstractAtom) (es : List Edit) (name : String) :
    (r.run es).entries.lookup name =
      (es.filterMap (Edit.stored? name)).getLast?.or (r.entries.lookup name) := by
  induction es generalizing r with
  | nil => rfl
  | cons e es ih =>
    have hrest := ih (r.applyOrKeep e)
    rw [lookup_applyOrKeep] at hrest
    rw [List.filterMap_cons]
    cases hstored : e.stored? name with
    | none => rwa [hstored] at hrest
    | some new =>
      rw [hstored, Option.some_or, Option.or_some] at hrest
      rwa [List.getLast?_cons, Option.some_or]

end AbstractAtom

/-- **Atoms as values with finite maps.** After any edits, which may store any atoms, copies of the
edited atom among them, an atom answers every question as the value and the finite map do that have
been edited alike, and every further edit is accepted or refused alike. The value is the one that
was set last, and under every name the atom is found that was stored there last; what has not been
edited is still there. -/
theorem Edit.run_shows_map (a : Atom) (es : List Edit) :
    (run a es).Shows (a.toAbstract.run es) ∧
    (∀ e : Edit, (e.apply (run a es)).map Atom.toAbstract = (a.toAbstract.run es).apply e) ∧
    (run a es).value = (es.filterMap value?).getLast?.getD a.value ∧
    ∀ name, (a.toAbstract.run es).entries.lookup name =
      (es.filterMap (stored? name)).getLast?.or (a.annotations.find? name) := by
  rw [← toAbstract_run]
  refine ⟨(run a es).shows_toAbstract, fun e => toAbstract_apply _ e, ?_, ?_⟩
  · have hvalue := a.toAbstract.value_run es
    rwa [← toAbstract_run] at hvalue
  · intro name
    rw [toAbstract_run, AbstractAtom.lookup_run, Atom.toAbstract, Annotations.lookup_entries]

end AnnotatedAtoms
