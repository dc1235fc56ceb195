import Mathlib.Data.List.Basic

/-!
# Guarded machines and their runs

A machine has a total next-state function and a guard that says which labels its
environment may choose in a state.  All nondeterminism sits in the labels, so a
run is a list of labels, its effect is a fold, and `Admits` says that every
label was allowed when it was taken.  `exec_induction` is the induction over runs
for invariants, which are then statements about a single step; `forall_prefix_iff`
is the one for properties that hold exactly as long as steps are good, and
`exists_run` the one for goals that steps bring nearer.

## Main definitions

* `Machine`, `Machine.exec`, `Machine.Admits` — machines and their runs.
* `Machine.Reachable` — the states at the end of an admitted run.
* `Machine.restrict` — the same machine under a further condition on each step.
-/

namespace Unid.Lib

/-- A machine: what each label does, and when the environment may choose it. -/
structure Machine (σ ℓ : Type) where
  next : σ → ℓ → σ
  guard : σ → ℓ → Prop

namespace Machine
variable {σ ℓ : Type} (M : Machine σ ℓ)

/-- The effect of a list of labels. -/
def exec (s : σ) (ls : List ℓ) : σ := ls.foldl M.next s

/-- Every label of the list satisfies the guard in the state it is taken in. -/
def Admits : σ → List ℓ → Prop
  | _, [] => True
  | s, l :: ls => M.guard s l ∧ Admits (M.next s l) ls

instance decidableAdmits [∀ s l, Decidable (M.guard s l)] : ∀ s ls, Decidable (M.Admits s ls)
  | _, [] => .isTrue trivial
  | s, l :: ls =>
      have : Decidable (M.Admits (M.next s l) ls) := decidableAdmits _ ls
      inferInstanceAs (Decidable (M.guard s l ∧ M.Admits (M.next s l) ls))

/-- The states at the end of an admitted run from `s`. -/
def Reachable (s t : σ) : Prop := ∃ ls, M.Admits s ls ∧ M.exec s ls = t

/-- The same machine, whose environment also keeps the condition `C`. -/
def restrict (C : σ → ℓ → Prop) : Machine σ ℓ where
  next := M.next
  guard s l := M.guard s l ∧ C s l

instance (C : σ → ℓ → Prop) (s : σ) (l : ℓ) [Decidable (M.guard s l)] [Decidable (C s l)] :
    Decidable ((M.restrict C).guard s l) :=
  inferInstanceAs (Decidable (M.guard s l ∧ C s l))

@[simp] theorem exec_nil (s : σ) : M.exec s [] = s := rfl
@[simp] theorem exec_cons (s : σ) (l : ℓ) (ls : List ℓ) :
    M.exec s (l :: ls) = M.exec (M.next s l) ls := rfl
@[simp] theorem admits_nil (s : σ) : M.Admits s [] := trivial
@[simp] theorem admits_cons (s : σ) (l : ℓ) (ls : List ℓ) :
    M.Admits s (l :: ls) ↔ M.guard s l ∧ M.Admits (M.next s l) ls := Iff.rfl

theorem exec_append (s : σ) (ls ms : List ℓ) :
    M.exec s (ls ++ ms) = M.exec (M.exec s ls) ms := List.foldl_append ..

theorem admits_append (s : σ) (ls ms : List ℓ) :
    M.Admits s (ls ++ ms) ↔ M.Admits s ls ∧ M.Admits (M.exec s ls) ms := by
  induction ls generalizing s with
  | nil => simp
  | cons l ls ih => simp [ih, and_assoc]

variable {M}

theorem Reachable.refl (s : σ) : M.Reachable s s := ⟨[], trivial, rfl⟩

/-- What every admitted step keeps, every admitted run keeps. -/
theorem exec_induction {I : σ → Prop} (hstep : ∀ s l, I s → M.guard s l → I (M.next s l))
    {s : σ} {ls : List ℓ} (hs : I s) (hls : M.Admits s ls) : I (M.exec s ls) := by
  induction ls generalizing s with
  | nil => exact hs
  | cons l ls ih => exact ih (hstep s l hs hls.1) hls.2

/-- When good steps keep an invariant that gives `P`, and any other step breaks `P` at once, then
`P` holds throughout a run exactly when all its steps are good. -/
theorem forall_prefix_iff {I P : σ → Prop} {good : ℓ → Prop} (hP : ∀ s, I s → P s)
    (hgood : ∀ s l, I s → M.guard s l → good l → I (M.next s l))
    (hbad : ∀ s l, I s → M.guard s l → ¬ good l → ¬ P (M.next s l))
    {s : σ} {ls : List ℓ} (hs : I s) (hls : M.Admits s ls) :
    (∀ ms, ms <+: ls → P (M.exec s ms)) ↔ ∀ l ∈ ls, good l := by
  induction ls generalizing s with
  | nil => simpa using hP s hs
  | cons l ls ih =>
      constructor
      · intro h
        have hl : good l := by
          by_contra hl
          exact hbad s l hs hls.1 hl (h [l] (by simp))
        refine List.forall_mem_cons.mpr ⟨hl, ?_⟩
        refine (ih (hgood s l hs hls.1 hl) hls.2).mp ?_
        intro ms hms
        exact h (l :: ms) (List.cons_prefix_cons.mpr ⟨rfl, hms⟩)
      · intro h ms hms
        obtain ⟨hl, hrest⟩ := List.forall_mem_cons.mp h
        obtain rfl | ⟨ms', rfl, hms'⟩ := List.prefix_cons_iff.mp hms
        · exact hP s hs
        · exact (ih (hgood s l hs hls.1 hl) hls.2).mpr hrest ms' hms'

/-- While the goal is not reached, a step of the wanted kind lowers the measure; so a run of such
steps reaches the goal. -/
theorem exists_run {I Q : σ → Prop} {kind : ℓ → Prop} (μ : σ → ℕ)
    (hstep : ∀ s, I s → ¬ Q s → ∃ l, M.guard s l ∧ kind l ∧ I (M.next s l) ∧ μ (M.next s l) < μ s)
    (s : σ) (hs : I s) :
    ∃ ls, M.Admits s ls ∧ (∀ l ∈ ls, kind l) ∧ I (M.exec s ls) ∧ Q (M.exec s ls) := by
  induction hμ : μ s using Nat.strongRecOn generalizing s with
  | _ n ih =>
      subst hμ
      by_cases hQ : Q s
      · exact ⟨[], trivial, by simp, hs, hQ⟩
      · obtain ⟨l, hl, hkind, hnext, hlt⟩ := hstep s hs hQ
        obtain ⟨ls, hls, hkinds, hend⟩ := ih _ hlt _ hnext rfl
        exact ⟨l :: ls, ⟨hl, hls⟩, List.forall_mem_cons.mpr ⟨hkind, hkinds⟩, hend⟩

end Machine
end Unid.Lib
