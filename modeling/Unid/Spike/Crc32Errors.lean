import Unid.Lib.Bytes
import Unid.Lib.LfsrOrder
import Unid.Spike.Crc32
import Mathlib.Tactic.NormNum.Prime

/-!
# What CRC-32 tells a receiver

The register of `compute_crc32` comes round after `2 ^ 32 - 1` steps and no
earlier, so two wrong bits are noticed unless they are a multiple of that apart:
half a gigabyte (`crc32_two_bits_iff`).  A receiver that runs `compute_crc32` over
the data and the checksum after it gets the same number whatever the data
(`crc32_residue`).
-/

namespace Unid.Spike
open Lib

/-! ## Two wrong bits -/

/-- The prime factors of `2 ^ 32 - 1` are the Fermat primes. -/
theorem prime_dvd_period {q : ℕ} (hq : q.Prime) (hdvd : q ∣ 2 ^ 32 - 1) :
    q = 3 ∨ q = 5 ∨ q = 17 ∨ q = 257 ∨ q = 65537 := by
  rw [show 2 ^ 32 - 1 = 3 * (5 * (17 * (257 * 65537))) by norm_num, hq.dvd_mul, hq.dvd_mul,
    hq.dvd_mul, hq.dvd_mul] at hdvd
  simpa only [Nat.prime_dvd_prime_iff_eq hq (by norm_num : Nat.Prime 3),
    Nat.prime_dvd_prime_iff_eq hq (by norm_num : Nat.Prime 5),
    Nat.prime_dvd_prime_iff_eq hq (by norm_num : Nat.Prime 17),
    Nat.prime_dvd_prime_iff_eq hq (by norm_num : Nat.Prime 257),
    Nat.prime_dvd_prime_iff_eq hq (by norm_num : Nat.Prime 65537)] using hdvd

/-- The 32 binary digits of a number, the highest first. -/
def digits32 (n : ℕ) : List Bool := (List.range 32).map fun i => n.testBit (31 - i)

/-- The polynomial is primitive. -/
theorem minimalPeriod_polynomial :
    Function.minimalPeriod (Lfsr.step polynomial) (Lfsr.top 32) = 2 ^ 32 - 1 := by
  have hpow : ∀ n, Lfsr.ofBits (digits32 n) = n →
      (Lfsr.step polynomial)^[n] (Lfsr.top 32) = Lfsr.powBits polynomial (digits32 n) := by
    intro n hn
    rw [Lfsr.powBits_eq_iterate, hn]
  refine Lfsr.minimalPeriod_eq_of_div_prime ?_ ?_
  · rw [hpow _ (by decide +kernel)]
    decide +kernel
  · intro q hq hdvd
    rcases prime_dvd_period hq hdvd with rfl | rfl | rfl | rfl | rfl <;>
      rw [hpow _ (by decide +kernel)] <;> decide +kernel

/-- Two strings of one length that differ in exactly two bits have the same checksum only if these
bits are a multiple of `2 ^ 32 - 1` apart. -/
theorem crc32_two_bits_iff (calls calls' : List (List Byte × BitVec 32)) {a b : List Byte}
    (hlen : a.length = b.length) {i j : ℕ} (hij : i < j)
    (hdiff : ∀ k, bitAt a k ≠ bitAt b k ↔ k = i ∨ k = j) (initial : BitVec 32) :
    (computeCrc32 (.after calls) a initial).1 = (computeCrc32 (.after calls') b initial).1 ↔
      2 ^ 32 - 1 ∣ j - i := by
  rw [computeCrc32_eq_bitwise (Statics.sound_after calls),
    computeCrc32_eq_bitwise (Statics.sound_after calls'), crc32Bitwise, crc32Bitwise,
    BitVec.not_inj]
  have hbits : (bitsOf a).length = (bitsOf b).length := by
    rw [length_bitsOf, length_bitsOf, hlen]
  -- beyond the end there is nothing to differ in
  have hin : ∀ k, bitAt a k ≠ bitAt b k → k < 8 * a.length := by
    intro k hk
    by_contra hout
    refine hk ?_
    rw [bitAt, bitAt, List.getD_eq_getElem?_getD, List.getD_eq_getElem?_getD,
      List.getElem?_eq_none (by omega), List.getElem?_eq_none (by omega)]
  have hsame : ∀ k, (bitsOf a)[k]? ≠ (bitsOf b)[k]? ↔ k = i ∨ k = j := by
    intro k
    rw [← hdiff k]
    by_cases hk : k < 8 * a.length
    · rw [getElem?_bitsOf hk, getElem?_bitsOf (hlen ▸ hk), ne_eq, Option.some.injEq]
    · rw [List.getElem?_eq_none (by rw [length_bitsOf]; omega),
        List.getElem?_eq_none (by rw [length_bitsOf]; omega)]
      exact ⟨fun h => absurd rfl h, fun h => absurd (hin k h) hk⟩
  have hj : j < (bitsOf a).length := by
    rw [length_bitsOf]
    exact hin j ((hdiff j).mpr (.inr rfl))
  obtain ⟨before, mid, after, b', c', ha, hb, hmid⟩ :=
    Lfsr.exists_split_two hbits hij hj hsame
  rw [ha, hb, ← hmid]
  exact Lfsr.feedBits_not_not_iff_dvd (by decide) (by decide) minimalPeriod_polynomial ..

/-- The first and the last bit of two bytes. -/
theorem crc32_two_bits_iff_ends :
    (computeCrc32 (.after []) [0, 0] 0).1 ≠
      (computeCrc32 (.after [([1, 2], 0)]) [0x01, 0x80] 0).1 := by
  have hdiff : ∀ k, bitAt [0, 0] k ≠ bitAt [0x01, 0x80] k ↔ k = 0 ∨ k = 15 := by
    intro k
    by_cases hk : k < 16
    · have hcheck : ∀ k < 16, bitAt [0, 0] k ≠ bitAt [0x01, 0x80] k ↔ k = 0 ∨ k = 15 := by decide
      exact hcheck k hk
    · have hpast : 2 ≤ k / 8 := by omega
      rw [bitAt, bitAt, List.getD_eq_getElem?_getD, List.getD_eq_getElem?_getD,
        List.getElem?_eq_none hpast, List.getElem?_eq_none hpast]
      exact ⟨fun h => absurd rfl h, fun h => by omega⟩
  have hiff := crc32_two_bits_iff [] [([1, 2], 0)] (a := [0, 0]) (b := [0x01, 0x80]) rfl
    (by decide) hdiff 0
  exact fun heq => absurd (hiff.mp heq) (by norm_num)

/-! ## The checksum after the data -/

theorem word_bitsOf_hostBytes {n : ℕ} (v : BitVec (8 * n)) :
    Lfsr.word (8 * n) (bitsOf (hostBytes v).toList) = v := by
  apply BitVec.eq_of_getLsbD_eq
  intro i hi
  have hlen : i < 8 * (hostBytes v).toList.length := by simpa using hi
  have hbyte : (hostBytes v).toList.getD (i / 8) 0 =
      BitVec.ofNat 8 (v.toNat / 2 ^ (8 * (i / 8))) := by
    have hlt : i / 8 < n := by omega
    rw [pow_mul]
    simp [hostBytes, hlt]
  rw [Lfsr.getLsbD_word, List.getD_eq_getElem?_getD, getElem?_bitsOf hlen, Option.getD_some, bitAt,
    hbyte, BitVec.getLsbD_ofNat, Nat.testBit_div_two_pow, Nat.mod_add_div, BitVec.testBit_toNat]
  simp [hi, Nat.mod_lt]

/-- The checksum of data with their checksum after them, least significant byte first, does not
depend on the data. -/
theorem crc32_residue (calls calls' : List (List Byte × BitVec 32)) (buf : List Byte)
    (initial : BitVec 32) :
    (computeCrc32 (.after calls') (buf ++ (hostBytes (n := 4)
      (computeCrc32 (.after calls) buf initial).1).toList) initial).1 = 0x2144DF1C := by
  rw [computeCrc32_eq_bitwise (Statics.sound_after calls'),
    computeCrc32_eq_bitwise (Statics.sound_after calls), crc32Bitwise_append]
  generalize crc32Bitwise buf initial = crc
  have hlen : (bitsOf (hostBytes (n := 4) crc).toList).length = 32 := by simp [length_bitsOf]
  have hword : Lfsr.word 32 (bitsOf (hostBytes (n := 4) crc).toList) = crc :=
    word_bitsOf_hostBytes (n := 4) crc
  -- adding the checksum to the inverted checksum leaves all bits set
  have hones : ~~~ crc ^^^ crc = BitVec.allOnes 32 := by
    apply BitVec.eq_of_getLsbD_eq
    intro i hi
    rw [BitVec.getLsbD_xor, BitVec.getLsbD_not, BitVec.getLsbD_allOnes]
    cases crc.getLsbD i <;> simp [hi]
  rw [crc32Bitwise, Lfsr.feedBits_eq_iterate _ hlen.le, hword, hlen, hones]
  decide +kernel

end Unid.Spike
