import Unid.Lib.Lfsr
import Mathlib.Data.Nat.Prime.Basic
import Mathlib.Dynamics.PeriodicPts.Defs

/-!
# How long a shift register takes to come round

Read from its top bit down, a register is a polynomial, and a step multiplies it
by the variable.  So the register after `n` steps is its product with what the
lone top bit has become, and `n` steps can be made in as many squarings as `n` has
binary digits.  This decides after how many steps the lone top bit comes round,
and so how far apart two wrong bits have to be to cancel each other.

## Main definitions

* `Lfsr.top`, `Lfsr.mul` — the lone top bit, and products.
* `Lfsr.powBits` — the top bit after a number of steps given in binary.
-/

namespace Unid.Lib.Lfsr

variable {w : ℕ} (p : BitVec w)

/-- The register with its top bit set. -/
def top (w : ℕ) : BitVec w := .twoPow w (w - 1)

/-- The sum of the steps of `b` that the lowest `n` bits of `a` stand for, the highest of them for
none. -/
def mulGo (a : BitVec w) : ℕ → BitVec w → BitVec w
  | 0, _ => 0
  | n + 1, b => (if a.getLsbD n then b else 0) ^^^ mulGo a n (step p b)

/-- The product of two registers. -/
def mul (a b : BitVec w) : BitVec w := mulGo p a w b

/-- The value of binary digits, the first of them the highest. -/
def ofBits (bits : List Bool) : ℕ := bits.foldl (fun n b => 2 * n + b.toNat) 0

/-- The top bit after `ofBits bits` steps. -/
def powBits (bits : List Bool) : BitVec w :=
  bits.foldl (fun a b => if b then step p (mul p a a) else mul p a a) (top w)

/-! ## Products -/

theorem step_zero : step p 0 = 0 := by simp [step]

theorem mulGo_step (a : BitVec w) (n : ℕ) (b : BitVec w) :
    mulGo p a n (step p b) = step p (mulGo p a n b) := by
  induction n generalizing b with
  | zero => exact (step_zero p).symm
  | succ n ih =>
      rw [mulGo, mulGo, step_xor, ih]
      cases a.getLsbD n with
      | false => rw [if_neg Bool.false_ne_true, if_neg Bool.false_ne_true, step_zero]
      | true => rfl

theorem mul_iterate_step (a b : BitVec w) (n : ℕ) :
    mul p a ((step p)^[n] b) = (step p)^[n] (mul p a b) := by
  induction n generalizing b with
  | zero => rfl
  | succ n ih =>
      rw [Function.iterate_succ_apply, Function.iterate_succ_apply, ih]
      exact congrArg _ (mulGo_step ..)

/-- A single bit moves down. -/
theorem step_twoPow {n : ℕ} (hn : n + 1 < w) :
    step p (.twoPow w (n + 1)) = .twoPow w n := by
  have hclear : (BitVec.twoPow w (n + 1)).getLsbD 0 = false := by simp [BitVec.getLsbD_twoPow]
  rw [step, hclear, if_neg Bool.false_ne_true]
  apply BitVec.eq_of_getLsbD_eq
  intro i hi
  rw [BitVec.getLsbD_ushiftRight, BitVec.getLsbD_twoPow, BitVec.getLsbD_twoPow]
  simp only [hn, show n < w by omega, decide_true, Bool.true_and, decide_eq_decide]
  omega

theorem getLsbD_mulGo (a : BitVec w) {n : ℕ} (hn : n ≤ w) (i : ℕ) :
    (mulGo p a n (.twoPow w (n - 1))).getLsbD i = (decide (i < n) && a.getLsbD i) := by
  induction n with
  | zero => simp [mulGo]
  | succ n ih =>
      -- the bits below are those of the product with the next lower bit
      have hlower : (mulGo p a n (step p (.twoPow w n))).getLsbD i =
          (decide (i < n) && a.getLsbD i) := by
        cases n with
        | zero => simp [mulGo]
        | succ n =>
            rw [step_twoPow p (by omega)]
            exact ih (by omega)
      have htop : (if a.getLsbD n then BitVec.twoPow w n else 0).getLsbD i =
          (decide (i = n) && a.getLsbD i) := by
        by_cases hin : i = n
        · subst hin
          cases a.getLsbD i <;> simp [BitVec.getLsbD_twoPow]
          omega
        · cases a.getLsbD n <;> simp [BitVec.getLsbD_twoPow, hin, Ne.symm hin]
      rw [Nat.add_sub_cancel, mulGo, BitVec.getLsbD_xor, hlower, htop]
      by_cases hin : i = n
      · simp [hin]
      · by_cases hlt : i < n
        · simp [hin, hlt, show i < n + 1 by omega]
        · simp [hin, hlt, show ¬ i < n + 1 by omega]

/-- The lone top bit is the unit. -/
theorem mul_top (a : BitVec w) : mul p a (top w) = a := by
  apply BitVec.eq_of_getLsbD_eq
  intro i hi
  rw [mul, top, getLsbD_mulGo p a le_rfl]
  simp [hi]

/-- To make `n` steps is to multiply by what they make of the top bit. -/
theorem iterate_step_eq_mul (n : ℕ) (a : BitVec w) :
    (step p)^[n] a = mul p a ((step p)^[n] (top w)) := by
  rw [mul_iterate_step, mul_top]

theorem powBits_eq_iterate (bits : List Bool) :
    powBits p bits = (step p)^[ofBits bits] (top w) := by
  have hgo : ∀ n, bits.foldl (fun a b => if b then step p (mul p a a) else mul p a a)
      ((step p)^[n] (top w)) =
        (step p)^[bits.foldl (fun n b => 2 * n + b.toNat) n] (top w) := by
    induction bits with
    | nil => exact fun _ => rfl
    | cons b bits ih =>
        intro n
        have hsquare : mul p ((step p)^[n] (top w)) ((step p)^[n] (top w)) =
            (step p)^[2 * n] (top w) := by
          rw [← iterate_step_eq_mul, ← Function.iterate_add_apply, two_mul]
        have hdigit : (if b then step p ((step p)^[2 * n] (top w)) else (step p)^[2 * n] (top w)) =
            (step p)^[2 * n + b.toNat] (top w) := by
          cases b with
          | false => rfl
          | true =>
              rw [if_pos rfl]
              exact (Function.iterate_succ_apply' ..).symm
        rw [List.foldl_cons, List.foldl_cons, hsquare, hdigit]
        exact ih _
  exact hgo 0

/-! ## Periods -/

/-- A period is the least one when none of its quotients by a prime is a period. -/
theorem minimalPeriod_eq_of_div_prime {α : Type} {f : α → α} {x : α} {n : ℕ}
    (hn : f^[n] x = x) (hprime : ∀ q, q.Prime → q ∣ n → f^[n / q] x ≠ x) :
    Function.minimalPeriod f x = n := by
  obtain ⟨k, hk⟩ := Function.IsPeriodicPt.minimalPeriod_dvd (f := f) hn
  by_cases hone : k = 1
  · rw [hone, mul_one] at hk
    exact hk.symm
  · obtain ⟨q, hq, l, hl⟩ := Nat.exists_prime_and_dvd hone
    have hdiv : n / q = Function.minimalPeriod f x * l := by
      rw [hk, hl, Nat.mul_left_comm, Nat.mul_div_cancel_left _ hq.pos]
    have hperiod : f^[n / q] x = x := by
      rw [hdiv]
      exact (Function.isPeriodicPt_minimalPeriod f x).mul_const l
    refine absurd hperiod (hprime q hq ⟨Function.minimalPeriod f x * l, ?_⟩)
    rw [hk, hl, Nat.mul_left_comm]

/-! ## Two wrong bits -/

variable {p}

/-- What is added to the register is carried along. -/
theorem feedBits_xor (r s : BitVec w) (bits : List Bool) :
    feedBits p (r ^^^ s) bits = feedBits p r bits ^^^ (step p)^[bits.length] s := by
  induction bits generalizing r s with
  | nil => rfl
  | cons b bits ih =>
      have hfeed : feed p (r ^^^ s) b = feed p r b ^^^ step p s := by
        rw [feed_eq_step, feed_eq_step, ← step_xor, BitVec.xor_assoc, BitVec.xor_comm s,
          ← BitVec.xor_assoc]
      exact (congrArg (feedBits p · bits) hfeed).trans (ih _ _)

theorem word_not (b : Bool) : word w [!b] = word w [b] ^^^ word w [true] := by
  cases b <;> simp [word]

/-- A wrong bit adds the lowest bit before the step. -/
theorem feed_not (r : BitVec w) (b : Bool) :
    feed p r (!b) = feed p r b ^^^ step p (word w [true]) := by
  rw [feed_eq_step, feed_eq_step, word_not, ← BitVec.xor_assoc, step_xor]

/-- Two wrong bits cancel each other when the lowest bit comes round between them. -/
theorem feedBits_not_not (hp : p.msb = true) (r : BitVec w) (before mid after : List Bool)
    (b c : Bool) :
    feedBits p r (before ++ b :: (mid ++ c :: after)) =
        feedBits p r (before ++ (!b) :: (mid ++ (!c) :: after)) ↔
      (step p)^[mid.length + 1] (word w [true]) = word w [true] := by
  have hsplit : ∀ b c, feedBits p r (before ++ b :: (mid ++ c :: after)) =
      feedBits p (feed p (feedBits p (feed p (feedBits p r before) b) mid) c) after := by
    intro b c
    rw [feedBits_append, ← List.singleton_append, feedBits_append, feedBits_append,
      ← List.singleton_append, feedBits_append]
    rfl
  let u := feedBits p (feed p (feedBits p r before) b) mid
  let v := (step p)^[mid.length + 1] (word w [true])
  have hwrong : feedBits p (feed p (feedBits p r before) (!b)) mid = u ^^^ v := by
    rw [feed_not, feedBits_xor, ← Function.iterate_succ_apply]
  have hsum : u ^^^ v ^^^ word w [!c] = (u ^^^ word w [c]) ^^^ (v ^^^ word w [true]) := by
    rw [word_not, BitVec.xor_assoc, BitVec.xor_assoc, ← BitVec.xor_assoc v,
      BitVec.xor_comm v (word w [c]), BitVec.xor_assoc]
  calc _ ↔ feed p u c = feed p (u ^^^ v) (!c) := by
        rw [hsplit, hsplit, (feedBits_injective hp after).eq_iff, hwrong]
    _ ↔ (u ^^^ word w [c]) ^^^ 0#w = (u ^^^ word w [c]) ^^^ (v ^^^ word w [true]) := by
        rw [feed_eq_step, feed_eq_step, (step_injective hp).eq_iff, hsum, BitVec.xor_zero]
    _ ↔ v = word w [true] := by
        rw [BitVec.xor_right_inj, eq_comm, BitVec.xor_eq_zero_iff]

/-- The lowest bit comes round when the top bit does. -/
theorem iterate_step_lowest (hp : p.msb = true) (hw : 0 < w) (n : ℕ) :
    (step p)^[n] (word w [true]) = word w [true] ↔ (step p)^[n] (top w) = top w := by
  have hdown : ∀ k, k < w → (step p)^[k] (top w) = .twoPow w (w - 1 - k) := by
    intro k hk
    induction k with
    | zero => rfl
    | succ k ih =>
        rw [Function.iterate_succ_apply', ih (by omega),
          show w - 1 - k = w - 1 - (k + 1) + 1 by omega]
        exact step_twoPow p (by omega)
  have hlow : word w [true] = (step p)^[w - 1] (top w) := by
    rw [hdown _ (by omega), Nat.sub_self]
    apply BitVec.eq_of_getLsbD_eq
    intro i hi
    cases i with
    | zero => simp [getLsbD_word, BitVec.getLsbD_twoPow]
    | succ i => simp [getLsbD_word, BitVec.getLsbD_twoPow]
  rw [hlow, ← Function.iterate_add_apply, Nat.add_comm, Function.iterate_add_apply]
  exact ((step_injective hp).iterate _).eq_iff

/-- Two wrong bits go unnoticed exactly when they are a multiple of the period apart. -/
theorem feedBits_not_not_iff_dvd (hp : p.msb = true) (hw : 0 < w) {n : ℕ}
    (hn : Function.minimalPeriod (step p) (top w) = n) (r : BitVec w)
    (before mid after : List Bool) (b c : Bool) :
    feedBits p r (before ++ b :: (mid ++ c :: after)) =
        feedBits p r (before ++ (!b) :: (mid ++ (!c) :: after)) ↔ n ∣ mid.length + 1 := by
  rw [feedBits_not_not hp, iterate_step_lowest hp hw, ← hn]
  exact Function.isPeriodicPt_iff_minimalPeriod_dvd

/-- Strings that differ in two places, taken apart there. -/
theorem exists_split_two {l l' : List Bool} (hlen : l.length = l'.length) {i j : ℕ} (hij : i < j)
    (hj : j < l.length) (hdiff : ∀ k, l[k]? ≠ l'[k]? ↔ k = i ∨ k = j) :
    ∃ before mid after b c, l = before ++ b :: (mid ++ c :: after) ∧
      l' = before ++ (!b) :: (mid ++ (!c) :: after) ∧ mid.length + 1 = j - i := by
  have hsplit : ∀ l : List Bool, ∀ hj : j < l.length, l = l.take i ++
      l[i] :: ((l.drop (i + 1)).take (j - i - 1) ++ l[j] :: l.drop (j + 1)) := by
    intro l hj
    have hrest : l.drop (i + 1) = (l.drop (i + 1)).take (j - i - 1) ++ l[j] :: l.drop (j + 1) := by
      have hdrop : (l.drop (i + 1)).drop (j - i - 1) = l[j] :: l.drop (j + 1) := by
        rw [List.drop_drop, show i + 1 + (j - i - 1) = j by omega]
        exact List.drop_eq_getElem_cons hj
      rw [← hdrop, List.take_append_drop]
    rw [← hrest, ← List.drop_eq_getElem_cons, List.take_append_drop]
  have hj' : j < l'.length := hlen ▸ hj
  have hsame : ∀ k, k ≠ i → k ≠ j → l[k]? = l'[k]? := by
    intro k hki hkj
    by_contra hne
    exact ((hdiff k).mp hne).elim hki hkj
  have hflip : ∀ k, (k = i ∨ k = j) → ∀ (h : k < l.length) (h' : k < l'.length), l'[k] = !l[k] := by
    intro k hk h h'
    have hne := (hdiff k).mpr hk
    rw [List.getElem?_eq_getElem h, List.getElem?_eq_getElem h'] at hne
    exact Bool.eq_not.mpr fun heq => hne (congrArg some heq.symm)
  refine ⟨l.take i, (l.drop (i + 1)).take (j - i - 1), l.drop (j + 1), l[i], l[j], hsplit l hj,
    ?_, ?_⟩
  · have hbefore : l.take i = l'.take i := by
      apply List.ext_getElem?
      intro k
      rw [List.getElem?_take, List.getElem?_take]
      split
      · exact hsame k (by omega) (by omega)
      · rfl
    have hmid : (l.drop (i + 1)).take (j - i - 1) = (l'.drop (i + 1)).take (j - i - 1) := by
      apply List.ext_getElem?
      intro k
      rw [List.getElem?_take, List.getElem?_take]
      split
      · rw [List.getElem?_drop, List.getElem?_drop]
        exact hsame _ (by omega) (by omega)
      · rfl
    have hafter : l.drop (j + 1) = l'.drop (j + 1) := by
      apply List.ext_getElem?
      intro k
      rw [List.getElem?_drop, List.getElem?_drop]
      exact hsame _ (by omega) (by omega)
    rw [hbefore, hmid, hafter, ← hflip i (.inl rfl), ← hflip j (.inr rfl)]
    exact hsplit l' hj'
  · rw [List.length_take, List.length_drop]
    omega

end Unid.Lib.Lfsr
