import Mathlib.Logic.Function.Basic
import Mathlib.Order.Nat

/-!
# Objects with a name

Processes that share an object of the kernel find it by a name.  The first to
open the name makes the object; later ones find it, whatever state it is in.
Taking the name away does not take the object away: who has it open keeps it,
and the next to open the name makes another one.

## Main definitions

* `Named` — the objects that one name has stood for, and the one it stands for now.
* `Named.openOrMake`, `Named.unlink`, `Named.modify` — its operations.
* `Named.Has`, `Named.Reaches` — an object with a property, and one that will have it before it
  loses its name.
-/

namespace Unid.Lib

/-- The objects that have been made under a name, by number, and the one that has it now. -/
structure Named (α : Type) where
  obj : ℕ → α
  made : ℕ
  bound : Option ℕ
  bound_lt : ∀ a ∈ bound, a < made

namespace Named
variable {α : Type} {n : Named α} {a b : ℕ} {init : α} {f : α → α} {p : α → Prop}

/-- Open the object that has the name, or make one. -/
def openOrMake (n : Named α) (init : α) : ℕ × Named α :=
  match n.bound with
  | some a => (a, n)
  | none =>
      (n.made, ⟨Function.update n.obj n.made init, n.made + 1, some n.made, by simp⟩)

/-- Take the name away. -/
def unlink (n : Named α) : Named α := ⟨n.obj, n.made, none, by simp⟩

def modify (n : Named α) (a : ℕ) (f : α → α) : Named α :=
  ⟨Function.update n.obj a (f (n.obj a)), n.made, n.bound, n.bound_lt⟩

@[simp] theorem bound_modify : (n.modify a f).bound = n.bound := rfl

@[simp] theorem obj_modify_self : (n.modify a f).obj a = f (n.obj a) := by simp [modify]

@[simp] theorem bound_unlink : n.unlink.bound = none := rfl

theorem openOrMake_of_bound (h : n.bound = some a) : n.openOrMake init = (a, n) := by
  simp [openOrMake, h]

@[simp] theorem bound_openOrMake :
    (n.openOrMake init).2.bound = some (n.openOrMake init).1 := by
  unfold openOrMake
  split
  · next h => exact h
  · rfl

/-- What was made just now is as it was made. -/
theorem obj_openOrMake_of_unbound (h : n.bound = none) :
    (n.openOrMake init).2.obj (n.openOrMake init).1 = init := by
  simp [openOrMake, h]

/-- The object with this number has been made, and has the property. -/
def Has (n : Named α) (p : α → Prop) (a : ℕ) : Prop := a < n.made ∧ p (n.obj a)

theorem has_of_bound (h : n.bound = some a) (hp : p (n.obj a)) : n.Has p a :=
  ⟨n.bound_lt a h, hp⟩

theorem Has.openOrMake (h : n.Has p a) : (n.openOrMake init).2.Has p a := by
  unfold Named.openOrMake
  split
  · exact h
  · have hne : a ≠ n.made := h.1.ne
    exact ⟨h.1.trans (Nat.lt_succ_self _), by simpa [hne] using h.2⟩

theorem Has.modify (h : n.Has p a) (hf : ∀ x, p x → p (f x)) : (n.modify b f).Has p a := by
  refine ⟨h.1, ?_⟩
  by_cases hab : a = b
  · subst hab
    simpa using hf _ h.2
  · simpa [Named.modify, hab] using h.2

/-- The object has the property, or it still has the name. -/
def Reaches (n : Named α) (p : α → Prop) (a : ℕ) : Prop := n.Has p a ∨ n.bound = some a

theorem Reaches.openOrMake (h : n.Reaches p a) : (n.openOrMake init).2.Reaches p a := by
  refine h.imp Has.openOrMake ?_
  intro hbound
  rw [openOrMake_of_bound hbound]
  exact hbound

theorem Reaches.modify (h : n.Reaches p a) (hf : ∀ x, p x → p (f x)) :
    (n.modify b f).Reaches p a := h.imp_left fun h => h.modify hf

/-- The name may be taken from an object that has the property. -/
theorem Reaches.unlink (h : n.Reaches p a) (hdone : ∀ b, n.bound = some b → p (n.obj b)) :
    n.unlink.Reaches p a := by
  have hhas : n.Has p a := h.elim id fun hbound => has_of_bound hbound (hdone a hbound)
  exact .inl hhas

end Named
end Unid.Lib
