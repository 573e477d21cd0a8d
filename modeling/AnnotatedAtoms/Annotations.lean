/-!
# Annotations

A finite map from texts to values of any type. The entries are kept in strictly increasing order of
the bytes of their keys, and the type itself says so: each entry carries the bound that the keys
after it lie above. So every key occurs once, and two maps with the same entries are identical.

* `find?_insert_self`, `find?_insert_of_ne`: what an insertion does to a look-up.
-/

namespace AnnotatedAtoms

/-- The bytes of a key in UTF-8. Keys are ordered by them. -/
def keyBytes (key : String) : List UInt8 := key.toByteArray.data.toList

theorem keyBytes_inj {a b : String} (h : keyBytes a = keyBytes b) : a = b :=
  String.toByteArray_inj.1 (ByteArray.ext (Array.toList_inj.1 h))

/-- Whether a key lies above a bound; no bound is below every key. -/
def Above (bound : Option String) (key : String) : Prop :=
  ∀ b ∈ bound, keyBytes b < keyBytes key

theorem above_none (key : String) : Above none key := fun _ h => nomatch h

theorem above_some {b key : String} (h : keyBytes b < keyBytes key) : Above (some b) key :=
  fun _ e => Option.some.inj e ▸ h

/-- Of two keys that are not in order and not the same the second comes first. -/
theorem above_of_not_lt {a b : String} (le : ¬ keyBytes a < keyBytes b) (ne : a ≠ b) :
    Above (some b) a :=
  above_some (List.not_le.1 fun ge => ne (keyBytes_inj (List.le_antisymm ge (List.not_lt.1 le))))

/-- A map whose keys lie above a bound. -/
inductive Annotations (α : Type) : Option String → Type where
  | nil {bound : Option String} : Annotations α bound
  | cons {bound : Option String} (key : String) (above : Above bound key) (value : α)
      (rest : Annotations α (some key)) : Annotations α bound

namespace Annotations

variable {α : Type}

/-- The entries in the order of their keys. -/
def toList {bound : Option String} : Annotations α bound → List (String × α)
  | .nil => []
  | .cons key _ value rest => (key, value) :: rest.toList

def size {bound : Option String} : Annotations α bound → Nat
  | .nil => 0
  | .cons _ _ _ rest => rest.size + 1

def find? (name : String) {bound : Option String} : Annotations α bound → Option α
  | .nil => none
  | .cons key _ value rest => if name = key then some value else rest.find? name

/-- Adds an entry in its place, or replaces the one that has the same key. -/
def insert (name : String) (new : α) {bound : Option String} (fits : Above bound name) :
    Annotations α bound → Annotations α bound
  | .nil => .cons name fits new .nil
  | .cons key above value rest =>
    if before : keyBytes name < keyBytes key then
      .cons name fits new (.cons key (above_some before) value rest)
    else if same : name = key then .cons key above new rest
    else .cons key above value (rest.insert name new (above_of_not_lt before same))

theorem find?_insert_self (name : String) (new : α) {bound : Option String}
    (fits : Above bound name) (m : Annotations α bound) :
    (m.insert name new fits).find? name = some new := by
  fun_induction insert with
  | case1 => simp [find?]
  | case2 => simp [find?]
  | case3 => simp [find?]
  | case4 _ _ _ _ _ _ _ ne ih => simpa [find?, ne] using ih

theorem find?_insert_of_ne {name other : String} (ne : other ≠ name) (new : α)
    {bound : Option String} (fits : Above bound name) (m : Annotations α bound) :
    (m.insert name new fits).find? other = m.find? other := by
  fun_induction insert with
  | case1 => simp [find?, ne]
  | case2 => simp [find?, ne]
  | case3 => simp [find?, ne]
  | case4 _ _ _ _ _ _ _ _ ih => simp [find?, ih]

theorem length_toList {bound : Option String} (m : Annotations α bound) :
    m.toList.length = m.size := by
  induction m with
  | nil => rfl
  | cons _ _ _ _ ih => simp [toList, size, ih]

end Annotations

end AnnotatedAtoms
