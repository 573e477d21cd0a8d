import Mathlib.Data.List.TakeWhile

/-!
# Runs of characters

A run of a class of characters at the beginning of a text, taken as far as it goes. Where the text
after the run does not go on with the class, exactly the run is taken.

* `span_run`: what is taken and what is left.
-/

namespace AnnotatedAtoms

variable (p : Char → Bool)

/-- A run ends where the next character is not of its class. -/
theorem span_run (run rest : List Char) (hrun : ∀ c ∈ run, p c = true)
    (hrest : ∀ c ∈ rest.head?, p c = false) :
    (run ++ rest).takeWhile p = run ∧ (run ++ rest).dropWhile p = rest := by
  rw [List.takeWhile_append_of_pos hrun, List.dropWhile_append_of_pos hrun]
  cases rest with
  | nil => simp
  | cons c cs =>
    have hc := hrest c (by simp)
    simp [hc]

theorem exists_cons_of_run {run : List Char} (hne : run ≠ []) (hrun : ∀ c ∈ run, p c = true) :
    ∃ c cs, run = c :: cs ∧ p c = true ∧ ∀ x ∈ cs, p x = true := by
  obtain ⟨c, cs, rfl⟩ := List.exists_cons_of_ne_nil hne
  rw [List.forall_mem_cons] at hrun
  exact ⟨c, cs, rfl, hrun⟩

theorem length_le_takeWhile (run rest : List Char) (hrun : ∀ c ∈ run, p c = true) :
    run.length ≤ ((run ++ rest).takeWhile p).length := by
  rw [List.takeWhile_append_of_pos hrun, List.length_append]
  omega

theorem head?_dropWhile_stops (cs : List Char) : ∀ c ∈ (cs.dropWhile p).head?, p c = false := by
  intro c hc
  have h := List.head?_dropWhile_not p cs
  rw [Option.mem_def] at hc
  simpa [hc] using h

end AnnotatedAtoms
