import AnnotatedAtoms.Annotations
import Mathlib.Data.Finmap

/-!
# Annotations as finite maps

The entries of some annotations, without their order, are a finite map. Looking up and inserting are
those of the map, and the list of the entries is the map in the order of the keys.

* `pairwise_toList`, `mem_toList_iff`: the list has every entry once, in the order of the keys;
* `lookup_entries`, `entries_insert`, `card_keys_entries`: the map.
-/

namespace AnnotatedAtoms

theorem above_trans {bound : Option String} {a b : String} (ha : Above bound a)
    (hb : Above (some a) b) : Above bound b :=
  fun c hc => List.lt_trans (ha c hc) (hb a rfl)

theorem ne_of_above {a b : String} (h : Above (some a) b) : b ≠ a := by
  rintro rfl
  exact List.lt_irrefl _ (h b rfl)

namespace Annotations

variable {α : Type} {bound : Option String}

/-! ## The list of entries -/

theorem above_of_mem_toList (m : Annotations α bound) : ∀ p ∈ m.toList, Above bound p.1 := by
  induction m with
  | nil => exact fun p hp => nomatch hp
  | cons key above value rest ih =>
    rw [toList, List.forall_mem_cons]
    exact ⟨above, fun p hp => above_trans above (ih p hp)⟩

theorem pairwise_toList (m : Annotations α bound) :
    (m.toList.map Prod.fst).Pairwise (fun a b => keyBytes a < keyBytes b) := by
  induction m with
  | nil => exact .nil
  | cons key above value rest ih =>
    refine .cons ?_ ih
    intro b hb
    obtain ⟨p, hp, rfl⟩ := List.mem_map.mp hb
    exact above_of_mem_toList rest p hp key rfl

theorem mem_toList_iff (m : Annotations α bound) (name : String) (v : α) :
    (name, v) ∈ m.toList ↔ m.find? name = some v := by
  induction m with
  | nil => simp [toList, find?]
  | cons key above value rest ih =>
    rw [toList, find?, List.mem_cons, Prod.mk.injEq]
    split_ifs with hname
    · have hrest : (name, v) ∉ rest.toList := by
        intro hmem
        exact ne_of_above (above_of_mem_toList rest _ hmem) hname
      simp [hname ▸ hrest, hname, eq_comm]
    · simp [hname, ih]

/-! ## The finite map -/

def entries (m : Annotations α bound) : Finmap fun _ : String => α :=
  (m.toList.map fun p => ⟨p.1, p.2⟩).toFinmap

theorem lookup_entries (m : Annotations α bound) (name : String) :
    m.entries.lookup name = m.find? name := by
  rw [entries, Finmap.dlookup_list_toFinmap]
  induction m with
  | nil => rfl
  | cons key above value rest ih =>
    rw [find?, toList, List.map_cons]
    split_ifs with hname
    · rw [hname, List.dlookup_cons_eq]
    · rw [List.dlookup_cons_ne _ _ hname, ih]

theorem entries_insert (m : Annotations α bound) (name : String) (new : α)
    (fits : Above bound name) : (m.insert name new fits).entries = m.entries.insert name new := by
  apply Finmap.ext_lookup
  intro other
  rw [lookup_entries]
  by_cases h : other = name
  · rw [h, find?_insert_self, Finmap.lookup_insert]
  · rw [find?_insert_of_ne h, Finmap.lookup_insert_of_ne _ h, lookup_entries]

theorem card_keys_entries (m : Annotations α bound) : m.entries.keys.card = m.size := by
  have hnodup : (m.toList.map Prod.fst).Nodup := by
    refine m.pairwise_toList.imp ?_
    rintro a b hlt rfl
    exact List.lt_irrefl _ hlt
  have hkeys : m.entries.keys = (m.toList.map Prod.fst).toFinset := by
    ext name
    simp [Finmap.mem_keys, Finmap.mem_iff, lookup_entries, mem_toList_iff]
  rw [hkeys, List.toFinset_card_of_nodup hnodup, List.length_map, length_toList]

end Annotations

end AnnotatedAtoms
