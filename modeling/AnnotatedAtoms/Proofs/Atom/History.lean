import AnnotatedAtoms.Proofs.Atom.FiniteMap
import Mathlib.Logic.Function.Iterate

/-!
# Atoms that remember themselves

An atom can be stored in itself, as it is at that moment. When that is all that is ever stored under
some name, the annotation of that name is the atom as it last stored itself, whose own annotation is
the atom as it stored itself the time before, and so on back to the beginning. No later edit changes
what has been stored.

* `get_applyOrKeep`: what one edit does to the annotation of a name;
* `iterate_get_run`: asked once more often than it was stored, the atom is back at the beginning;
* `run_history`: every atom that was stored, and what comes before the first.
-/

namespace AnnotatedAtoms.Edit

variable {name : String} {a key new : Atom} {e : Edit} {es : List Edit}

/-! ## One edit -/

/-- The annotation of a name is the last atom that was stored there. -/
theorem get_applyOrKeep (hkey : key.value = .string name) (a : Atom) (e : Edit) :
    (applyOrKeep a e).get key = (e.stored? name).getD (a.get key) := by
  have hbefore := a.shows_toAbstract.get_string key name hkey
  have hafter := (applyOrKeep a e).shows_toAbstract.get_string key name hkey
  rw [toAbstract_applyOrKeep, AbstractAtom.lookup_applyOrKeep] at hafter
  rw [hafter, hbefore]
  cases e.stored? name with
  | none => rfl
  | some new => rfl

theorem get_applyOrKeep_of_stored (hkey : key.value = .string name) (a : Atom)
    (h : e.stored? name = some new) : (applyOrKeep a e).get key = new := by
  rw [get_applyOrKeep hkey, h, Option.getD_some]

theorem get_applyOrKeep_of_not_stored (hkey : key.value = .string name) (a : Atom)
    (h : e.stored? name = none) : (applyOrKeep a e).get key = a.get key := by
  rw [get_applyOrKeep hkey, h, Option.getD_none]

theorem stored?_annotate (hkey : key.value = .string name) (new : Atom) :
    (annotate key new).stored? name = some new :=
  if_pos hkey

theorem stored?_annotate_of_ne (hkey : key.value ≠ .string name) (new : Atom) :
    (annotate key new).stored? name = none :=
  if_neg hkey

/-! ## Runs -/

/-- Runs of edits that store nothing under a name but the atom itself, as it is at that moment. What
the other edits set or store is not restricted. -/
inductive StoresItself (name : String) : Atom → List Edit → Prop where
  | nil (a : Atom) : StoresItself name a []
  | other {a : Atom} {e : Edit} {es : List Edit} :
    e.stored? name = none → StoresItself name (applyOrKeep a e) es → StoresItself name a (e :: es)
  | itself {a key : Atom} {es : List Edit} :
    key.value = .string name → StoresItself name (applyOrKeep a (.annotate key a)) es →
      StoresItself name a (.annotate key a :: es)

/-- How often something is stored under a name. -/
def timesStored (name : String) (es : List Edit) : Nat :=
  es.countP fun e => (e.stored? name).isSome

theorem timesStored_cons_of_none (h : e.stored? name = none) :
    timesStored name (e :: es) = timesStored name es :=
  List.countP_cons_of_neg (by simp [h])

theorem timesStored_cons_of_some (h : e.stored? name = some new) :
    timesStored name (e :: es) = timesStored name es + 1 :=
  List.countP_cons_of_pos (by simp [h])

theorem StoresItself.tail (h : StoresItself name a (e :: es)) :
    StoresItself name (applyOrKeep a e) es := by
  cases h with
  | other _ hrest => exact hrest
  | itself _ hrest => exact hrest

theorem StoresItself.eq_of_stored? (h : StoresItself name a (e :: es))
    (hnew : e.stored? name = some new) : new = a := by
  cases h with
  | other hnone _ =>
    rw [hnone] at hnew
    cases hnew
  | itself hkey _ =>
    rw [stored?_annotate hkey] at hnew
    exact (Option.some.inj hnew).symm

theorem StoresItself.of_append {before after : List Edit}
    (h : StoresItself name a (before ++ after)) : StoresItself name (run a before) after := by
  induction before generalizing a with
  | nil => exact h
  | cons e before ih => exact ih h.tail

/-! ## What is remembered -/

/-- Asked once more often than it was stored, the atom is back where the run began. -/
theorem iterate_get_run (hkey : key.value = .string name) (h : StoresItself name a es) :
    (Atom.get · key)^[timesStored name es + 1] (run a es) = a.get key := by
  induction h with
  | nil a => rfl
  | @other a e es hnone _ ih =>
    rw [timesStored_cons_of_none hnone, ← get_applyOrKeep_of_not_stored hkey a hnone]
    exact ih
  | @itself a key' es hkey' _ ih =>
    -- The other questions lead back behind this edit, and the last one leads in front of it.
    have hstored := stored?_annotate hkey' a
    rw [get_applyOrKeep_of_stored hkey a hstored] at ih
    rw [timesStored_cons_of_some hstored, Function.iterate_succ_apply']
    exact congrArg (Atom.get · key) ih

/-- What was stored is the atom as it was before, however the run goes on. -/
theorem iterate_get_run_of_stored {before after : List Edit}
    (hkey : key.value = .string name) (h : StoresItself name a (before ++ e :: after))
    (hstored : (e.stored? name).isSome = true) :
    (Atom.get · key)^[timesStored name (e :: after)] (run a (before ++ e :: after)) =
      run a before := by
  obtain ⟨new, hnew⟩ := Option.isSome_iff_exists.mp hstored
  have hrest := h.of_append
  obtain rfl := hrest.eq_of_stored? hnew
  have hlast := iterate_get_run hkey hrest.tail
  rw [get_applyOrKeep_of_stored hkey _ hnew] at hlast
  rw [timesStored_cons_of_some hnew, run_append]
  exact hlast

/-- The edits that store are counted from the last one, without a gap. -/
theorem exists_split_of_le_timesStored {i : Nat} (hpos : 0 < i) (h : i ≤ timesStored name es) :
    ∃ before e after, es = before ++ e :: after ∧ (e.stored? name).isSome = true ∧
      timesStored name (e :: after) = i := by
  induction es with
  | nil => exact absurd h (Nat.not_le_of_lt hpos)
  | cons e es ih =>
    by_cases hi : i ≤ timesStored name es
    · obtain ⟨before, e', after, rfl, hstored, hcount⟩ := ih hi
      exact ⟨e :: before, e', after, rfl, hstored, hcount⟩
    · cases hnew : e.stored? name with
      | none =>
        rw [timesStored_cons_of_none hnew] at h
        exact absurd h hi
      | some new =>
        have hcount : timesStored name (e :: es) = timesStored name es + 1 :=
          timesStored_cons_of_some hnew
        exact ⟨[], e, es, rfl, by rw [hnew]; rfl, by omega⟩

/-- **Remembered atoms.** Let a run store nothing under a name but the edited atom itself, and let
it do so `n` times. Whichever of these edits is the `i`-th last, with `i` from one to `n`, the final
atom asked `i` times in a row for that annotation comes to the atom as it was right before the edit,
with all its annotations at every depth. Asked `n + 1` times, it comes to what the first atom had
under the name. -/
theorem run_history (hkey : key.value = .string name) (h : StoresItself name a es) :
    (∀ i, 0 < i → i ≤ timesStored name es → ∃ before e after, es = before ++ e :: after ∧
      (e.stored? name).isSome = true ∧ timesStored name (e :: after) = i) ∧
    (∀ before e after, es = before ++ e :: after → (e.stored? name).isSome = true →
      (Atom.get · key)^[timesStored name (e :: after)] (run a es) = run a before) ∧
    (Atom.get · key)^[timesStored name es + 1] (run a es) =
      (a.annotations.find? name).getD .empty := by
  refine ⟨fun i => exists_split_of_le_timesStored, ?_, ?_⟩
  · rintro before e after rfl hstored
    exact iterate_get_run_of_stored hkey h hstored
  · have hfirst := a.shows_toAbstract.get_string key name hkey
    rw [Atom.toAbstract, Annotations.lookup_entries] at hfirst
    rw [iterate_get_run hkey h, hfirst]

/-- An atom that is stored in itself, changed, stored in itself again under the same name and changed
again remembers both. -/
theorem run_history_twice :
    ∃ a b c : Atom, a = .ofSymbol "x" ∧
      b = run a [.annotate (.ofString "old") a, .setString "y"] ∧
      c = run b [.annotate (.ofString "old") b, .annotate (.ofString "new") b, .setNumber .zero] ∧
      (Atom.get · (.ofString "old"))^[1] c = b ∧ (Atom.get · (.ofString "old"))^[2] c = a ∧
      (Atom.get · (.ofString "old"))^[3] c = .empty := by
  have hrun {a b : Atom} (hb : b = run a [.annotate (.ofString "old") a, .setString "y"]) :
      StoresItself "old" a [.annotate (.ofString "old") a, .setString "y",
        .annotate (.ofString "old") b, .annotate (.ofString "new") b, .setNumber .zero] := by
    have hnew : (annotate (.ofString "new") b).stored? "old" = none :=
      stored?_annotate_of_ne (by decide) b
    subst hb
    exact .itself rfl (.other rfl (.itself rfl (.other hnew (.other rfl (.nil _)))))
  have hkey : (Atom.ofString "old").value = .string "old" := rfl
  obtain ⟨-, hstored, hfirst⟩ := run_history hkey (hrun rfl)
  exact ⟨.ofSymbol "x", _, _, rfl, rfl, rfl, hstored [_, _] _ _ rfl rfl, hstored [] _ _ rfl rfl,
    hfirst⟩

end AnnotatedAtoms.Edit
