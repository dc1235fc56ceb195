import Mathlib.Data.Nat.ModEq
import Mathlib.Tactic.Ring

/-!
# Byte-addressed memory and little-endian words

Memory is a total function from addresses to bytes.  `readLE` and `writeLE`
move an unsigned integer of `n` bytes, least significant byte first; a `Word` is
the eight-byte case.  The two facts used everywhere are that a read returns what
was last written there, and that disjoint accesses do not interfere.

## Main definitions

* `readLE`, `writeLE` — integers of any width.
* `readWord`, `writeWord` — the 64-bit words of the machine.
* `writeByte`, `writeBytes` — single bytes and byte strings.
-/

namespace Unid.Lib

abbrev Byte := BitVec 8

/-- A machine word: a pointer or a `size_t`. -/
abbrev Word := BitVec 64

/-- The contents of memory, byte by byte. -/
abbrev Mem := ℕ → Byte

/-- The `n`-byte little-endian integer at `a`. -/
def readLE (m : Mem) (a : ℕ) : ℕ → ℕ
  | 0 => 0
  | n + 1 => (m a).toNat + 256 * readLE m (a + 1) n

/-- Store the low `n` bytes of `v` at `a`. -/
def writeLE (m : Mem) (a n v : ℕ) : Mem := fun x =>
  if a ≤ x ∧ x < a + n then BitVec.ofNat 8 (v / 256 ^ (x - a)) else m x

theorem readLE_congr {m m' : Mem} {a n : ℕ} (h : ∀ x, a ≤ x → x < a + n → m x = m' x) :
    readLE m a n = readLE m' a n := by
  induction n generalizing a with
  | zero => rfl
  | succ n ih =>
      have htail : readLE m (a + 1) n = readLE m' (a + 1) n := by
        apply ih
        intro x hx hlt
        exact h x (by omega) (by omega)
      simp only [readLE, htail, h a (by omega) (by omega)]

/-- Bytes that spell out `v` read back as `v`, up to the width. -/
theorem readLE_of_digits {m : Mem} {a n v : ℕ}
    (h : ∀ i < n, m (a + i) = BitVec.ofNat 8 (v / 256 ^ i)) :
    readLE m a n = v % 256 ^ n := by
  induction n generalizing a v with
  | zero => simp [readLE, Nat.mod_one]
  | succ n ih =>
      have hhead : (m a).toNat = v % 256 := by
        have h0 := h 0 (by omega)
        simp only [add_zero, pow_zero, Nat.div_one] at h0
        rw [h0, BitVec.toNat_ofNat]
      have htail : readLE m (a + 1) n = v / 256 % 256 ^ n := by
        apply ih
        intro i hi
        rw [show a + 1 + i = a + (i + 1) by ring, h (i + 1) (by omega), pow_succ',
          Nat.div_div_eq_div_mul]
      rw [readLE, hhead, htail, pow_succ', Nat.mod_mul]

theorem readLE_lt (m : Mem) (a n : ℕ) : readLE m a n < 256 ^ n := by
  induction n generalizing a with
  | zero => simp [readLE]
  | succ n ih =>
      have hhead : (m a).toNat < 256 := (m a).isLt
      have htail := ih (a + 1)
      rw [readLE, pow_succ']
      omega

/-- The digits of an integer that was read are the bytes it was read from. -/
theorem digit_readLE (m : Mem) {a n i : ℕ} (hi : i < n) :
    BitVec.ofNat 8 (readLE m a n / 256 ^ i) = m (a + i) := by
  induction n generalizing a i with
  | zero => exact absurd hi (Nat.not_lt_zero i)
  | succ n ih =>
      have hhead : (m a).toNat < 256 := (m a).isLt
      cases i with
      | zero =>
          apply BitVec.eq_of_toNat_eq
          rw [readLE, pow_zero, Nat.div_one, BitVec.toNat_ofNat, add_zero]
          omega
      | succ i =>
          rw [readLE, pow_succ', ← Nat.div_div_eq_div_mul,
            Nat.add_mul_div_left _ _ (by omega), Nat.div_eq_of_lt hhead, zero_add,
            ih (by omega)]
          congr 1
          ring

theorem readLE_writeLE (m : Mem) (a n v : ℕ) :
    readLE (writeLE m a n v) a n = v % 256 ^ n := by
  apply readLE_of_digits
  intro i hi
  simp [writeLE, hi]

theorem writeLE_of_lt (m : Mem) {a n v x : ℕ} (h : x < a) : writeLE m a n v x = m x := by
  simp [writeLE, show ¬ a ≤ x by omega]

theorem writeLE_of_ge (m : Mem) {a n v x : ℕ} (h : a + n ≤ x) : writeLE m a n v x = m x := by
  simp [writeLE, show ¬ x < a + n by omega]

/-! ## Words -/

/-- The word stored at `a`. -/
def readWord (m : Mem) (a : ℕ) : Word := BitVec.ofNat 64 (readLE m a 8)

/-- Store a word at `a`. -/
def writeWord (m : Mem) (a : ℕ) (v : Word) : Mem := writeLE m a 8 v.toNat

@[simp] theorem readWord_writeWord_self (m : Mem) (a : ℕ) (v : Word) :
    readWord (writeWord m a v) a = v := by
  apply BitVec.eq_of_toNat_eq
  rw [readWord, writeWord, readLE_writeLE, BitVec.toNat_ofNat]
  have hv : v.toNat < 2 ^ 64 := v.isLt
  omega

theorem readWord_congr {m m' : Mem} {a : ℕ} (h : ∀ x, a ≤ x → x < a + 8 → m x = m' x) :
    readWord m a = readWord m' a := by
  rw [readWord, readWord, readLE_congr h]

/-- Outside the eight bytes of a word store nothing changes. -/
theorem writeWord_of_disjoint (m : Mem) {a x : ℕ} (v : Word) (h : x < a ∨ a + 8 ≤ x) :
    writeWord m a v x = m x := by
  rcases h with h | h
  · exact writeLE_of_lt m h
  · exact writeLE_of_ge m h

theorem readWord_writeWord_of_disjoint (m : Mem) {a b : ℕ} (v : Word)
    (h : a + 8 ≤ b ∨ b + 8 ≤ a) : readWord (writeWord m a v) b = readWord m b := by
  apply readWord_congr
  intro x hx hlt
  apply writeWord_of_disjoint
  omega

/-! ## Bytes -/

/-- Store one byte. -/
def writeByte (m : Mem) (a : ℕ) (b : Byte) : Mem := Function.update m a b

/-- Store a byte string, its first byte at `a`. -/
def writeBytes (m : Mem) (a : ℕ) : List Byte → Mem
  | [] => m
  | b :: bs => writeBytes (writeByte m a b) (a + 1) bs

@[simp] theorem writeByte_self (m : Mem) (a : ℕ) (b : Byte) : writeByte m a b a = b := by
  simp [writeByte]

theorem writeByte_of_ne (m : Mem) {a x : ℕ} (b : Byte) (h : x ≠ a) : writeByte m a b x = m x := by
  simp [writeByte, h]

/-- A byte string changes only the addresses it covers. -/
theorem writeBytes_of_outside (m : Mem) {a x : ℕ} (bs : List Byte)
    (h : x < a ∨ a + bs.length ≤ x) : writeBytes m a bs x = m x := by
  induction bs generalizing m a with
  | nil => rfl
  | cons b bs ih =>
      simp only [List.length_cons] at h
      rw [writeBytes, ih _ (by omega), writeByte_of_ne m b (by omega)]

/-- A byte string stands where it was written. -/
theorem writeBytes_get (m : Mem) (a : ℕ) (bs : List Byte) :
    (List.range bs.length).map (fun i => writeBytes m a bs (a + i)) = bs := by
  induction bs generalizing m a with
  | nil => rfl
  | cons b bs ih =>
      have hfirst : writeBytes (writeByte m a b) (a + 1) bs a = b := by
        rw [writeBytes_of_outside _ _ (by omega), writeByte_self]
      have hrest := ih (writeByte m a b) (a + 1)
      simp only [List.length_cons, List.range_succ_eq_map, List.map_cons, List.map_map,
        Nat.add_zero, writeBytes, hfirst, List.cons.injEq, true_and]
      refine Eq.trans (List.map_congr_left ?_) hrest
      intro i _
      simp only [Function.comp_apply, Nat.succ_eq_add_one]
      congr 1
      omega

end Unid.Lib
