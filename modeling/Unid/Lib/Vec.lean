import Mathlib.Data.List.Basic

/-!
# Growing arrays with storage

A `Vec` is a sequence of elements in a piece of storage.  Elements are appended
in place while there is room; otherwise all of them move to new storage and the
old one is given up.  Removing elements moves later ones down in place.  A
position that was taken earlier is a storage and an index: it can be read as
long as the storage is still the array's and the index still below its size.

## Main definitions

* `Vec` — elements, capacity and storage.
* `Vec.pushBack`, `Vec.removeIf`, `Vec.mapIdx` — the operations.
* `Vec.read` — an element at a position taken earlier.
-/

namespace Unid.Lib

/-- A growing array; a new piece of storage gets a new number. -/
structure Vec (α : Type) where
  elems : List α
  capacity : ℕ
  storage : ℕ
  fits : elems.length ≤ capacity

namespace Vec
variable {α β : Type}

def empty : Vec α := ⟨[], 0, 0, Nat.le_refl 0⟩

def size (v : Vec α) : ℕ := v.elems.length

/-- The element at index `i` of the storage `st`, if that is an element of the array. -/
def read (v : Vec α) (st i : ℕ) : Option α := if st = v.storage then v.elems[i]? else none

/-- Append an element; `grow` is the capacity to move to when there is no room. -/
def pushBack (grow : ℕ → ℕ) (v : Vec α) (x : α) : Vec α :=
  if h : v.size < v.capacity then
    { v with elems := v.elems ++ [x], fits := by rw [List.length_append]; exact h }
  else
    ⟨v.elems ++ [x], max (grow v.capacity) (v.elems.length + 1), v.storage + 1,
      by rw [List.length_append]; exact Nat.le_max_right _ _⟩

/-- Remove the elements with `p`. -/
def removeIf (v : Vec α) (p : α → Bool) : Vec α :=
  { v with
    elems := v.elems.filter (!p ·)
    fits := Nat.le_trans (List.length_filter_le _ _) v.fits }

/-- Change every element in place. -/
def mapIdx (v : Vec α) (f : ℕ → α → β) : Vec β :=
  ⟨v.elems.mapIdx f, v.capacity, v.storage, by rw [List.length_mapIdx]; exact v.fits⟩

@[simp] theorem elems_pushBack (grow : ℕ → ℕ) (v : Vec α) (x : α) :
    (v.pushBack grow x).elems = v.elems ++ [x] := by
  unfold pushBack
  split <;> rfl

/-- With room, an element is appended in place. -/
theorem storage_pushBack_of_lt {grow : ℕ → ℕ} {v : Vec α} (h : v.size < v.capacity) (x : α) :
    (v.pushBack grow x).storage = v.storage := by
  rw [pushBack, dif_pos h]

/-- Without room, the storage is given up. -/
theorem storage_pushBack_of_not_lt {grow : ℕ → ℕ} {v : Vec α} (h : ¬ v.size < v.capacity)
    (x : α) : (v.pushBack grow x).storage = v.storage + 1 := by
  rw [pushBack, dif_neg h]

/-- Removing what is not there changes nothing. -/
theorem removeIf_eq_self {v : Vec α} {p : α → Bool} (h : ∀ x ∈ v.elems, p x = false) :
    v.removeIf p = v := by
  have helems : v.elems.filter (!p ·) = v.elems := by
    rw [List.filter_eq_self]
    intro x hx
    rw [h x hx]
    rfl
  simp only [removeIf, helems]

theorem read_eq_some {v : Vec α} {st i : ℕ} {x : α} :
    v.read st i = some x ↔ st = v.storage ∧ v.elems[i]? = some x := by
  unfold read
  split
  · next h => simp [h]
  · next h => simp [h]

end Vec
end Unid.Lib
