import Mathlib.Data.List.Basic
import Mathlib.Data.Nat.ModEq

/-!
# Rings with one free slot

A ring keeps a window of an ever growing list of values in finitely many slots:
value number `j` lies in slot `j % cap`.  The window starts at `head`, ends at
the end of the list and is always shorter than `cap`, so that the two ends fall
on one slot only when the window is empty.

Read from one end, the contents are `window`: so many slots from a first one on,
around the ring.

## Main definitions

* `Ring slot cap head xs` — the slots hold the values of `xs` from number `head` on.
* `window slot cap i n` — `n` slots from slot `i` on.
-/

namespace Unid.Lib

variable {α : Type}

/-- Within one lap, two counters fall on one slot at the start and at the end only. -/
theorem mod_eq_mod_iff_of_lap {cap h n : ℕ} (hle : h ≤ n) (hlt : n ≤ h + cap) :
    n % cap = h % cap ↔ n = h ∨ n = h + cap := by
  constructor
  · intro heq
    have hdvd : cap ∣ n - h := (Nat.modEq_iff_dvd' hle).mp heq.symm
    rcases Nat.eq_zero_or_pos (n - h) with hzero | hpos
    · exact .inl (by omega)
    · exact .inr (by have := Nat.le_of_dvd hpos hdvd; omega)
  · rintro (rfl | rfl)
    · rfl
    · exact Nat.add_mod_right h cap

/-- The slots hold the values of `xs` from number `head` on. -/
structure Ring (slot : ℕ → α) (cap head : ℕ) (xs : List α) : Prop where
  pos : 0 < cap
  le : head ≤ xs.length
  lt : xs.length < head + cap
  holds : ∀ j (hj : j < xs.length), head ≤ j → slot (j % cap) = xs[j]

namespace Ring
variable {slot slot' : ℕ → α} {cap head : ℕ} {xs : List α}

/-- Equal indices mean an empty window. -/
theorem empty_iff (R : Ring slot cap head xs) :
    xs.length % cap = head % cap ↔ xs.length = head := by
  have hlt := R.lt
  rw [mod_eq_mod_iff_of_lap R.le hlt.le]
  omega

/-- The next index meets the head exactly when one slot is left. -/
theorem full_iff (R : Ring slot cap head xs) :
    (xs.length + 1) % cap = head % cap ↔ xs.length + 1 = head + cap := by
  have hle := R.le
  have hlt := R.lt
  rw [mod_eq_mod_iff_of_lap (by omega) (by omega)]
  omega

/-- The slot after the window is none of the window's. -/
theorem slot_ne (R : Ring slot cap head xs) {j : ℕ} (hle : head ≤ j) (hj : j < xs.length) :
    j % cap ≠ xs.length % cap := by
  have hlt := R.lt
  intro heq
  rcases (mod_eq_mod_iff_of_lap hj.le (by omega)).mp heq.symm with h | h <;> omega

/-- Writing the slot after the window leaves the window alone. -/
theorem write (R : Ring slot cap head xs)
    (hslot : ∀ i, i ≠ xs.length % cap → slot' i = slot i) : Ring slot' cap head xs := by
  refine ⟨R.pos, R.le, R.lt, ?_⟩
  intro j hj hle
  rw [hslot _ (R.slot_ne hle hj)]
  exact R.holds j hj hle

/-- Moving the end over a written slot. -/
theorem push (R : Ring slot cap head xs) {x : α} (hroom : xs.length + 1 < head + cap)
    (hx : slot (xs.length % cap) = x) : Ring slot cap head (xs ++ [x]) := by
  have hle := R.le
  refine ⟨R.pos, by simp; omega, by simp; omega, ?_⟩
  intro j hj hhead
  by_cases hlast : j < xs.length
  · rw [List.getElem_append_left hlast]
    exact R.holds j hlast hhead
  · have hlen : j = xs.length := by simp at hj; omega
    subst hlen
    simpa using hx

/-- Moving the head over the first value. -/
theorem pop (R : Ring slot cap head xs) (hne : head < xs.length) :
    Ring slot cap (head + 1) xs := by
  have hlt := R.lt
  exact ⟨R.pos, hne, by omega, fun j hj hle => R.holds j hj (by omega)⟩

/-- How long the window is, from the two indices. -/
theorem length_window (R : Ring slot cap head xs) :
    (xs.length % cap + cap - head % cap) % cap = xs.length - head := by
  have hle := R.le
  have hlt := R.lt
  have hhead := Nat.mod_lt head R.pos
  have hsum : xs.length % cap + cap - head % cap ≡ xs.length - head [MOD cap] := by
    refine Nat.ModEq.add_right_cancel' head ?_
    have hfold : xs.length % cap + cap - head % cap + head ≡ xs.length + cap [MOD cap] := by
      calc xs.length % cap + cap - head % cap + head
          ≡ xs.length % cap + cap - head % cap + head % cap [MOD cap] :=
            (Nat.mod_modEq head cap).symm.add_left _
        _ = xs.length % cap + cap := by omega
        _ ≡ xs.length + cap [MOD cap] := (Nat.mod_modEq _ cap).add_right cap
    rw [Nat.sub_add_cancel hle]
    exact hfold.trans (Nat.add_modEq_right)
  rw [hsum, Nat.mod_eq_of_lt (by omega)]

end Ring

/-! ## Windows -/

/-- The contents of `n` slots from slot `i` on, around a ring of `cap` slots. -/
def window (slot : ℕ → α) (cap i n : ℕ) : List α :=
  (List.range n).map fun k => slot ((i + k) % cap)

section Window
variable {slot slot' : ℕ → α} {cap i n : ℕ}

/-- Where a window starts matters up to full laps only. -/
theorem window_mod : window slot cap (i % cap) n = window slot cap i n := by
  simp only [window, Nat.mod_add_mod]

theorem window_succ : window slot cap i (n + 1) = slot (i % cap) :: window slot cap (i + 1) n := by
  simp only [window, List.range_succ_eq_map, List.map_cons, List.map_map]
  refine congrArg₂ List.cons rfl (List.map_congr_left ?_)
  intro k _
  rw [Function.comp_apply, Nat.succ_eq_add_one, Nat.add_assoc i 1 k, Nat.add_comm 1 k]

/-- Writing the slot after a window that leaves one free makes the window longer. -/
theorem window_write {x : α} (hn : n < cap) (hother : ∀ j, j ≠ (i + n) % cap → slot' j = slot j)
    (hx : slot' ((i + n) % cap) = x) :
    window slot' cap i (n + 1) = window slot cap i n ++ [x] := by
  rw [window, List.range_succ, List.map_append, List.map_singleton, hx, window]
  congr 1
  refine List.map_congr_left ?_
  intro k hk
  have hk' : k < n := List.mem_range.mp hk
  refine hother _ ?_
  intro heq
  rcases (mod_eq_mod_iff_of_lap (by omega) (by omega)).mp heq.symm with h | h <;> omega

end Window
end Unid.Lib
