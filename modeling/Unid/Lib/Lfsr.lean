import Mathlib.Logic.Function.Iterate
import Mathlib.Data.List.Basic

/-!
# Reflected shift registers

A shift register of `w` bits moves down by one bit a step and takes up the
polynomial when the bit that falls out is set.  A step is linear over xor, and
with the top bit of the polynomial set it loses nothing.  Data are fed bit by
bit, each added to the bit about to fall out; up to `w` bits can as well be added
all at once, before the steps are made.

## Main definitions

* `Lfsr.step` — one step of the register.
* `Lfsr.feed`, `Lfsr.feedBits` — data, one bit at a time.
* `Lfsr.word` — a bit string as a register.
-/

namespace Unid.Lib.Lfsr

variable {w : ℕ} (p : BitVec w)

/-- One step of the register. -/
def step (r : BitVec w) : BitVec w := if r.getLsbD 0 then p ^^^ (r >>> 1) else r >>> 1

/-- One bit of data: whether the polynomial is taken up depends on its sum with the bit that
falls out. -/
def feed (r : BitVec w) (b : Bool) : BitVec w :=
  if r.getLsbD 0 ^^ b then p ^^^ (r >>> 1) else r >>> 1

def feedBits (r : BitVec w) (bits : List Bool) : BitVec w := bits.foldl (feed p) r

/-- The register with these as its lowest bits. -/
def word (w : ℕ) : List Bool → BitVec w
  | [] => 0
  | b :: bits => (BitVec.ofBool b).setWidth w ^^^ (word w bits <<< 1)

/-! ## Steps -/

variable {p} {r s : BitVec w}

theorem xor_xor_xor_cancel (a b c : BitVec w) : (a ^^^ b) ^^^ (a ^^^ c) = b ^^^ c := by
  rw [BitVec.xor_comm a b, BitVec.xor_assoc, ← BitVec.xor_assoc a a c, BitVec.xor_self,
    BitVec.zero_xor]

/-- A step is linear. -/
theorem step_xor (r s : BitVec w) : step p (r ^^^ s) = step p r ^^^ step p s := by
  simp only [step, BitVec.getLsbD_xor, BitVec.ushiftRight_xor_distrib]
  cases r.getLsbD 0 <;> cases s.getLsbD 0
  · rfl
  · simp only [Bool.false_xor, if_true, Bool.false_eq_true, if_false]
    rw [← BitVec.xor_assoc, BitVec.xor_comm p, BitVec.xor_assoc]
  · simp only [Bool.xor_false, if_true, Bool.false_eq_true, if_false]
    rw [BitVec.xor_assoc]
  · simp only [Bool.xor_self, if_true, Bool.false_eq_true, if_false]
    rw [xor_xor_xor_cancel]

theorem iterate_step_xor (n : ℕ) (r s : BitVec w) :
    (step p)^[n] (r ^^^ s) = (step p)^[n] r ^^^ (step p)^[n] s := by
  induction n generalizing r s with
  | zero => rfl
  | succ n ih => simp only [Function.iterate_succ_apply, step_xor, ih]

/-- Clear bits only fall out. -/
theorem iterate_step_of_clear (p : BitVec w) {n : ℕ} (h : ∀ i < n, r.getLsbD i = false) :
    (step p)^[n] r = r >>> n := by
  induction n generalizing r with
  | zero => simp
  | succ n ih =>
      have hstep : step p r = r >>> 1 := by
        rw [step, h 0 (Nat.succ_pos n)]
        rfl
      have hclear : ∀ i < n, (r >>> 1).getLsbD i = false := by
        intro i hi
        rw [BitVec.getLsbD_ushiftRight]
        exact h (1 + i) (by omega)
      rw [Function.iterate_succ_apply, hstep, ih hclear, ← BitVec.shiftRight_add, Nat.add_comm]

/-- The lowest `n` bits decide what `n` steps add to the rest of the register moving down. -/
theorem iterate_step_eq_xor_shift (p : BitVec w) {n : ℕ} {low : BitVec w}
    (hlow : ∀ i, low.getLsbD i = (decide (i < n) && r.getLsbD i)) :
    (step p)^[n] r = (step p)^[n] low ^^^ (r >>> n) := by
  have hclear : ∀ i < n, (low ^^^ r).getLsbD i = false := by
    intro i hi
    simp [BitVec.getLsbD_xor, hlow, hi]
  have hout : low >>> n = 0 := by
    apply BitVec.eq_of_getLsbD_eq
    intro i hi
    rw [BitVec.getLsbD_ushiftRight, hlow]
    simp [show ¬ n + i < n by omega]
  have hsplit : low ^^^ (low ^^^ r) = r := by
    rw [← BitVec.xor_assoc, BitVec.xor_self, BitVec.zero_xor]
  calc (step p)^[n] r
      = (step p)^[n] (low ^^^ (low ^^^ r)) := by rw [hsplit]
    _ = (step p)^[n] low ^^^ ((low ^^^ r) >>> n) := by
        rw [iterate_step_xor, iterate_step_of_clear p hclear]
    _ = (step p)^[n] low ^^^ (r >>> n) := by
        rw [BitVec.ushiftRight_xor_distrib, hout]
        simp

/-- With the top bit of the polynomial set, only the zero register steps to zero. -/
theorem step_eq_zero (hp : p.msb = true) (h : step p r = 0) : r = 0 := by
  cases hlow : r.getLsbD 0 with
  | true =>
      rw [step, hlow, if_pos rfl] at h
      rw [BitVec.xor_eq_zero_iff.mp h, BitVec.msb_ushiftRight] at hp
      exact absurd hp (by simp)
  | false =>
      rw [step, hlow, if_neg Bool.false_ne_true] at h
      apply BitVec.eq_of_getLsbD_eq
      intro i hi
      cases i with
      | zero => simpa using hlow
      | succ i =>
          have hbit := congrArg (·.getLsbD i) h
          simpa [Nat.add_comm] using hbit

theorem step_injective (hp : p.msb = true) : Function.Injective (step p) := by
  intro r s h
  have hzero : step p (r ^^^ s) = 0 := by
    rw [step_xor, h]
    exact BitVec.xor_self
  exact BitVec.xor_eq_zero_iff.mp (step_eq_zero hp hzero)

/-! ## Data -/

theorem getLsbD_word (bits : List Bool) (i : ℕ) :
    (word w bits).getLsbD i = (decide (i < w) && bits.getD i false) := by
  induction bits generalizing i with
  | nil => simp [word]
  | cons b bits ih =>
      cases i with
      | zero => simp [word]
      | succ i =>
          have hhead : ((BitVec.ofBool b).setWidth w).getLsbD (i + 1) = false := by simp
          rw [word, BitVec.getLsbD_xor, hhead, BitVec.getLsbD_shiftLeft, Nat.add_sub_cancel, ih]
          by_cases hi : i + 1 < w
          · simp [hi, show i < w by omega]
          · simp [hi]

/-- Strings that fit the register are told apart by it. -/
theorem word_injective {bits bits' : List Bool} (hlen : bits.length = bits'.length)
    (hfit : bits.length ≤ w) (h : word w bits = word w bits') : bits = bits' := by
  apply List.ext_getElem hlen
  intro i hi hi'
  have hbit : (word w bits).getLsbD i = (word w bits').getLsbD i := by rw [h]
  rw [getLsbD_word, getLsbD_word] at hbit
  simpa [hi, hi', show i < w by omega] using hbit

theorem word_cons (b : Bool) (bits : List Bool) :
    word w (b :: bits) = word w [b] ^^^ (word w bits <<< 1) := by
  simp [word]

/-- Feeding a bit is adding it to the lowest bit and stepping. -/
theorem feed_eq_step (r : BitVec w) (b : Bool) : feed p r b = step p (r ^^^ word w [b]) := by
  rcases Nat.eq_zero_or_pos w with rfl | hw
  · exact Subsingleton.elim _ _
  · have hout : word w [b] >>> 1 = 0 := by
      apply BitVec.eq_of_getLsbD_eq
      intro i hi
      simp [getLsbD_word]
    rw [feed, step, BitVec.getLsbD_xor, BitVec.ushiftRight_xor_distrib, hout, getLsbD_word]
    simp [hw]

/-- A string that leaves the top bit free moves up and down unchanged. -/
theorem step_word_shiftLeft (p : BitVec w) {bits : List Bool} (hfit : bits.length < w) :
    step p (word w bits <<< 1) = word w bits := by
  have hclear : ∀ i < 1, (word w bits <<< 1).getLsbD i = false := by
    intro i hi
    simp [hi]
  refine (iterate_step_of_clear p hclear).trans ?_
  apply BitVec.eq_of_getLsbD_eq
  intro i hi
  rw [BitVec.getLsbD_ushiftRight, BitVec.getLsbD_shiftLeft, Nat.add_sub_cancel_left,
    getLsbD_word]
  by_cases hlast : 1 + i < w
  · simp [hlast]
  · simp [hlast, show bits.length ≤ i by omega]

/-- Up to `w` bits may be added all at once. -/
theorem feedBits_eq_iterate (r : BitVec w) {bits : List Bool} (hfit : bits.length ≤ w) :
    feedBits p r bits = (step p)^[bits.length] (r ^^^ word w bits) := by
  induction bits generalizing r with
  | nil => simp [feedBits, word]
  | cons b bits ih =>
      rw [List.length_cons] at hfit ⊢
      have hfirst : step p (r ^^^ word w (b :: bits)) = feed p r b ^^^ word w bits := by
        rw [word_cons, ← BitVec.xor_assoc, step_xor, step_word_shiftLeft p hfit, feed_eq_step]
      rw [Function.iterate_succ_apply, hfirst]
      exact ih _ (by omega)

theorem feedBits_append (r : BitVec w) (bits bits' : List Bool) :
    feedBits p r (bits ++ bits') = feedBits p (feedBits p r bits) bits' :=
  List.foldl_append

theorem feedBits_injective (hp : p.msb = true) (bits : List Bool) :
    Function.Injective fun r => feedBits p r bits := by
  induction bits with
  | nil => exact fun _ _ h => h
  | cons b bits ih =>
      intro r s h
      have hfeed : feed p r b = feed p s b := ih h
      rw [feed_eq_step, feed_eq_step] at hfeed
      exact BitVec.xor_left_inj _ |>.mp (step_injective hp hfeed)

/-- Data that differ in a stretch of at most `w` bits leave different registers. -/
theorem feedBits_ne_of_burst (hp : p.msb = true) (r : BitVec w)
    {before burst burst' after : List Bool} (hlen : burst.length = burst'.length)
    (hfit : burst.length ≤ w) (hne : burst ≠ burst') :
    feedBits p r (before ++ burst ++ after) ≠ feedBits p r (before ++ burst' ++ after) := by
  intro h
  rw [feedBits_append, feedBits_append, feedBits_append, feedBits_append] at h
  have hburst := feedBits_injective hp after h
  have hfit' : burst'.length ≤ w := hlen ▸ hfit
  rw [feedBits_eq_iterate (feedBits p r before) hfit,
    feedBits_eq_iterate (feedBits p r before) hfit', hlen] at hburst
  have hword := (step_injective hp).iterate _ hburst
  exact hne (word_injective hlen hfit (BitVec.xor_right_inj _ |>.mp hword))

/-- The same, with the stretch given by where the data may differ. -/
theorem feedBits_ne_of_window (hp : p.msb = true) (r : BitVec w) {bits bits' : List Bool}
    (hlen : bits.length = bits'.length) (hne : bits ≠ bits') (k : ℕ)
    (hwin : ∀ i, bits[i]? ≠ bits'[i]? → k ≤ i ∧ i < k + w) :
    feedBits p r bits ≠ feedBits p r bits' := by
  have hsplit (l : List Bool) : l.take k ++ (l.drop k).take w ++ l.drop (k + w) = l := by
    rw [List.append_assoc, ← List.drop_drop, List.take_append_drop, List.take_append_drop]
  have hbefore : bits.take k = bits'.take k := by
    apply List.ext_getElem?
    intro i
    rw [List.getElem?_take, List.getElem?_take]
    split
    · by_contra hi
      have := hwin i hi
      omega
    · rfl
  have hafter : bits.drop (k + w) = bits'.drop (k + w) := by
    apply List.ext_getElem?
    intro i
    rw [List.getElem?_drop, List.getElem?_drop]
    by_contra hi
    have := hwin _ hi
    omega
  have hburst : (bits.drop k).take w ≠ (bits'.drop k).take w := by
    intro heq
    apply hne
    rw [← hsplit bits, ← hsplit bits', hbefore, heq, hafter]
  rw [← hsplit bits, ← hsplit bits', hbefore, hafter]
  exact feedBits_ne_of_burst hp r (by simp [hlen]) (List.length_take_le _ _) hburst

end Unid.Lib.Lfsr
