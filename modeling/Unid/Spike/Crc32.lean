import Unid.Lib.ByteMem
import Unid.Lib.Lfsr
import Mathlib.Data.List.OfFn

/-!
# CRC-32

`generate_crc32_table` and `compute_crc32` of `crc32.cpp`.  The table and the
flag that says it is there are static: they outlive a call, so a call starts from
what the calls before it left.

A table entry is eight steps of a shift register, and one lookup does the work of
eight steps because the steps are linear: the low byte of the register goes
through the table while the rest only moves down.

## Main definitions

* `generateCrc32Table`, `Statics`, `computeCrc32` — the code.
* `bitsOf` — the bits of a byte string, least significant first in each byte.
* `crc32Bitwise` — the reflected CRC-32, bit at a time.
-/

namespace Unid.Spike
open Lib

/-! ## The code -/

def polynomial : BitVec 32 := 0xEDB88320

/-- The inner loop's body. -/
def crcStep (c : BitVec 32) : BitVec 32 :=
  if c &&& 1 ≠ 0 then polynomial ^^^ (c >>> 1) else c >>> 1

abbrev CrcTable := Vector (BitVec 32) 256

def generateCrc32Table (table : CrcTable) : CrcTable :=
  Nat.fold 256 (fun i hi table => table.set i (crcStep^[8] (BitVec.ofNat 32 i)) hi) table

/-- The static variables of `compute_crc32`. -/
structure Statics where
  table : CrcTable
  tableGenerated : Bool

/-- As the program starts. -/
def Statics.init : Statics := ⟨.replicate 256 0, false⟩

theorem low_byte_lt (x : BitVec 32) : (x &&& 0xFF).toNat < 256 := by
  rw [BitVec.toNat_and]
  exact Nat.lt_of_le_of_lt Nat.and_le_right (by decide)

/-- `table[x & 0xFF]`. -/
def lookup (table : CrcTable) (x : BitVec 32) : BitVec 32 :=
  have := low_byte_lt x
  table[(x &&& 0xFF).toNat]

/-- The loop's body. -/
def crcByte (table : CrcTable) (crc : BitVec 32) (u : Byte) : BitVec 32 :=
  lookup table (crc ^^^ u.setWidth 32) ^^^ (crc >>> 8)

def computeCrc32 (st : Statics) (buf : List Byte) (initial : BitVec 32) : BitVec 32 × Statics :=
  let st := if st.tableGenerated then st else ⟨generateCrc32Table st.table, true⟩
  let crc := buf.foldl (crcByte st.table) (initial ^^^ 0xFFFFFFFF)
  (crc ^^^ 0xFFFFFFFF, st)

/-- The static variables after some calls of `compute_crc32`. -/
def Statics.after (calls : List (List Byte × BitVec 32)) : Statics :=
  calls.foldl (fun st call => (computeCrc32 st call.1 call.2).2) .init

/-! ## Bit at a time -/

/-- The bits of a byte string, the least significant bit of each byte first. -/
def bitsOf (buf : List Byte) : List Bool := buf.flatMap fun u => List.ofFn u.getLsb

/-- The reflected CRC-32: every bit of the data goes into the register by itself, and the
register is inverted before and after. -/
def crc32Bitwise (buf : List Byte) (initial : BitVec 32) : BitVec 32 :=
  ~~~ Lfsr.feedBits polynomial (~~~ initial) (bitsOf buf)

/-! ## The table -/

theorem crcStep_eq : crcStep = Lfsr.step polynomial := by
  funext c
  have hlow : c &&& 1 = (BitVec.ofBool (c.getLsbD 0)).setWidth 32 :=
    BitVec.and_one_eq_setWidth_ofBool_getLsbD
  rw [crcStep, Lfsr.step, hlow]
  cases c.getLsbD 0 <;> rfl

/-- What a loop leaves that fills an array from the front. -/
theorem getElem_fold_set {α : Type} {m n : ℕ} (f : ℕ → α) (v : Vector α m) (hn : n ≤ m) {i : ℕ}
    (hi : i < n) :
    (Nat.fold n (fun k hk v => v.set k (f k) (by omega)) v)[i] = f i := by
  induction n with
  | zero => exact absurd hi (Nat.not_lt_zero i)
  | succ n ih =>
      rw [Nat.fold_succ, Vector.getElem_set]
      by_cases hlast : n = i
      · rw [if_pos hlast, hlast]
      · rw [if_neg hlast]
        exact ih (by omega) (by omega)

/-- The table holds eight steps of each byte. -/
def CrcTable.Sound (table : CrcTable) : Prop :=
  ∀ x : BitVec 32, lookup table x = (Lfsr.step polynomial)^[8] (x &&& 0xFF)

theorem sound_generateCrc32Table (table : CrcTable) : (generateCrc32Table table).Sound := by
  intro x
  simp only [lookup, generateCrc32Table]
  rw [getElem_fold_set _ _ le_rfl (low_byte_lt x), crcStep_eq]
  simp

theorem getLsbD_low_byte (x : BitVec 32) (i : ℕ) :
    (x &&& 0xFF).getLsbD i = (decide (i < 8) && x.getLsbD i) := by
  have hmask : (0xFF : BitVec 32).getLsbD i = decide (i < 8) := by
    have hbits := BitVec.getLsbD_ofNat 32 (2 ^ 8 - 1) i
    rw [Nat.testBit_two_pow_sub_one] at hbits
    exact hbits.trans (by simp; omega)
  rw [BitVec.getLsbD_and, hmask, Bool.and_comm]

theorem word_ofFn_getLsb (u : Byte) : Lfsr.word 32 (List.ofFn u.getLsb) = u.setWidth 32 := by
  apply BitVec.eq_of_getLsbD_eq
  intro i hi
  rw [Lfsr.getLsbD_word, BitVec.getLsbD_setWidth]
  by_cases hbyte : i < 8
  · rw [List.getD_eq_getElem?_getD, List.getElem?_ofFn, dif_pos hbyte]
    simp only [hi, decide_true, Bool.true_and, Option.getD_some]
    rfl
  · simp [hbyte, hi, BitVec.getLsbD_of_ge u i (by omega)]

/-- One lookup feeds a byte. -/
theorem crcByte_eq_feedBits {table : CrcTable} (hT : table.Sound) (crc : BitVec 32) (u : Byte) :
    crcByte table crc u = Lfsr.feedBits polynomial crc (List.ofFn u.getLsb) := by
  have hmoved : (crc ^^^ u.setWidth 32) >>> 8 = crc >>> 8 := by
    have hout : u.setWidth 32 >>> 8 = 0 := by
      apply BitVec.eq_of_toNat_eq
      have := u.isLt
      simp [Nat.shiftRight_eq_div_pow]
      omega
    rw [BitVec.ushiftRight_xor_distrib, hout]
    simp
  rw [crcByte, hT, ← hmoved, ← Lfsr.iterate_step_eq_xor_shift _ (getLsbD_low_byte _),
    Lfsr.feedBits_eq_iterate _ (by simp), word_ofFn_getLsb, List.length_ofFn]

theorem foldl_crcByte {table : CrcTable} (hT : table.Sound) (crc : BitVec 32) (buf : List Byte) :
    buf.foldl (crcByte table) crc = Lfsr.feedBits polynomial crc (bitsOf buf) := by
  induction buf generalizing crc with
  | nil => rfl
  | cons u buf ih =>
      rw [List.foldl_cons, ih, crcByte_eq_feedBits hT, ← Lfsr.feedBits_append]
      rfl

/-! ## The checksum -/

/-- When the flag is set, the table is there. -/
def Statics.Sound (st : Statics) : Prop := st.tableGenerated = true → st.table.Sound

theorem Statics.Sound.table_after {st : Statics} (hst : st.Sound) (buf : List Byte)
    (initial : BitVec 32) : (computeCrc32 st buf initial).2.table.Sound := by
  cases hgen : st.tableGenerated with
  | true => simpa [computeCrc32, hgen] using hst hgen
  | false => simpa [computeCrc32, hgen] using sound_generateCrc32Table st.table

theorem Statics.sound_after (calls : List (List Byte × BitVec 32)) : (after calls).Sound := by
  have hinv : ∀ st : Statics, st.Sound →
      (calls.foldl (fun st call => (computeCrc32 st call.1 call.2).2) st).Sound := by
    induction calls with
    | nil => exact fun _ hst => hst
    | cons call calls ih =>
        intro st hst
        exact ih _ fun _ => hst.table_after call.1 call.2
  exact hinv .init nofun

theorem xor_allOnes (x : BitVec 32) : x ^^^ 0xFFFFFFFF = ~~~ x :=
  BitVec.xor_allOnes

theorem computeCrc32_eq_bitwise {st : Statics} (hst : st.Sound) (buf : List Byte)
    (initial : BitVec 32) : (computeCrc32 st buf initial).1 = crc32Bitwise buf initial := by
  have hcompute : (computeCrc32 st buf initial).1 =
      buf.foldl (crcByte (computeCrc32 st buf initial).2.table) (initial ^^^ 0xFFFFFFFF) ^^^
        0xFFFFFFFF := rfl
  rw [hcompute, xor_allOnes, xor_allOnes, foldl_crcByte (hst.table_after buf initial)]
  rfl

theorem crc32Bitwise_append (a b : List Byte) (initial : BitVec 32) :
    crc32Bitwise (a ++ b) initial = crc32Bitwise b (crc32Bitwise a initial) := by
  have hbits : bitsOf (a ++ b) = bitsOf a ++ bitsOf b := List.flatMap_append
  rw [crc32Bitwise, hbits, Lfsr.feedBits_append, crc32Bitwise, crc32Bitwise, BitVec.not_not]

/-- Whatever was computed before, `compute_crc32` is the bit-at-a-time CRC-32, and a string may
be passed in two pieces. -/
theorem crc32_bitwise (calls : List (List Byte × BitVec 32)) :
    (∀ buf initial, (computeCrc32 (.after calls) buf initial).1 = crc32Bitwise buf initial) ∧
    ∀ a b initial, (computeCrc32 (.after calls) (a ++ b) initial).1 =
      (computeCrc32 (computeCrc32 (.after calls) a initial).2 b
        (computeCrc32 (.after calls) a initial).1).1 := by
  have hst := Statics.sound_after calls
  refine ⟨computeCrc32_eq_bitwise hst, ?_⟩
  intro a b initial
  rw [computeCrc32_eq_bitwise hst, computeCrc32_eq_bitwise hst,
    computeCrc32_eq_bitwise fun _ => hst.table_after a initial, crc32Bitwise_append]

-- The known answer of `main`.
example : crc32Bitwise ("The quick brown fox jumps over the lazy dog".toList.map fun c =>
    BitVec.ofNat 8 c.toNat) 0 = 0x414fa339 := by decide +kernel

/-! ## Bursts -/

/-- Bit `i` of a byte string, counted from the least significant bit of each byte. -/
def bitAt (buf : List Byte) (i : ℕ) : Bool := (buf.getD (i / 8) 0).getLsbD (i % 8)

theorem bitsOf_cons (u : Byte) (buf : List Byte) :
    bitsOf (u :: buf) = List.ofFn u.getLsb ++ bitsOf buf := rfl

theorem length_bitsOf (buf : List Byte) : (bitsOf buf).length = 8 * buf.length := by
  induction buf with
  | nil => rfl
  | cons u buf ih =>
      rw [bitsOf_cons, List.length_append, List.length_ofFn, ih, List.length_cons]
      omega

theorem bitAt_cons (u : Byte) (buf : List Byte) (i : ℕ) :
    bitAt (u :: buf) i = if i < 8 then u.getLsbD i else bitAt buf (i - 8) := by
  split
  · next hfirst => rw [bitAt, Nat.div_eq_of_lt hfirst, Nat.mod_eq_of_lt hfirst]; rfl
  · next hrest =>
      rw [bitAt, bitAt, show i / 8 = (i - 8) / 8 + 1 by omega, show i % 8 = (i - 8) % 8 by omega]
      rfl

theorem getElem?_bitsOf {buf : List Byte} {i : ℕ} (hi : i < 8 * buf.length) :
    (bitsOf buf)[i]? = some (bitAt buf i) := by
  induction buf generalizing i with
  | nil => exact absurd hi (Nat.not_lt_zero i)
  | cons u buf ih =>
      rw [List.length_cons] at hi
      rw [bitsOf_cons, bitAt_cons]
      by_cases hfirst : i < 8
      · rw [List.getElem?_append_left (by simpa using hfirst), List.getElem?_ofFn,
          dif_pos hfirst, if_pos hfirst]
        rfl
      · rw [List.getElem?_append_right (by simpa using hfirst), List.length_ofFn,
          ih (by omega), if_neg hfirst]

/-- The bits determine the bytes. -/
theorem eq_of_bitsOf_eq {a b : List Byte} (hlen : a.length = b.length)
    (h : bitsOf a = bitsOf b) : a = b := by
  induction a generalizing b with
  | nil => exact (List.length_eq_zero_iff.mp hlen.symm).symm
  | cons u a ih =>
      cases b with
      | nil => exact absurd hlen (Nat.succ_ne_zero _)
      | cons v b =>
          rw [bitsOf_cons, bitsOf_cons] at h
          obtain ⟨hfirst, hrest⟩ := List.append_inj h (by simp)
          have hbits := List.ofFn_injective hfirst
          have huv : u = v := BitVec.eq_of_getLsbD_eq fun i hi => congrFun hbits ⟨i, hi⟩
          rw [huv, ih (Nat.succ.inj hlen) hrest]

/-- Two strings of one length that differ, and only within 32 consecutive bits, have different
checksums. -/
theorem crc32_detects_burst (calls calls' : List (List Byte × BitVec 32)) {a b : List Byte}
    (hlen : a.length = b.length) (hne : a ≠ b) (k : ℕ)
    (hwin : ∀ i, bitAt a i ≠ bitAt b i → k ≤ i ∧ i < k + 32) (initial : BitVec 32) :
    (computeCrc32 (.after calls) a initial).1 ≠ (computeCrc32 (.after calls') b initial).1 := by
  rw [computeCrc32_eq_bitwise (Statics.sound_after calls),
    computeCrc32_eq_bitwise (Statics.sound_after calls')]
  intro h
  have hbits : (bitsOf a).length = (bitsOf b).length := by
    rw [length_bitsOf, length_bitsOf, hlen]
  refine Lfsr.feedBits_ne_of_window (by decide) (~~~ initial) hbits
    (mt (eq_of_bitsOf_eq hlen) hne) k ?_ (BitVec.not_inj.mp h)
  intro i hi
  apply hwin i
  intro hsame
  apply hi
  by_cases hin : i < 8 * a.length
  · rw [getElem?_bitsOf hin, getElem?_bitsOf (hlen ▸ hin), hsame]
  · rw [List.getElem?_eq_none (by rw [length_bitsOf]; omega),
      List.getElem?_eq_none (by rw [length_bitsOf]; omega)]

/-- A burst of two bits that straddles two bytes, in a first and in a second call. -/
theorem crc32_detects_burst_straddling :
    (computeCrc32 (.after []) [0x75, 0x6e] 0).1 ≠
      (computeCrc32 (.after [([0x75, 0x6e], 0)]) [0xF5, 0x6f] 0).1 := by
  apply crc32_detects_burst [] [([0x75, 0x6e], 0)] (a := [0x75, 0x6e]) (b := [0xF5, 0x6f]) rfl
    (by decide) 7
  intro i hi
  have hlt : i < 16 := by
    by_contra hge
    have hpast : 2 ≤ i / 8 := by omega
    rw [bitAt, bitAt, List.getD_eq_getElem?_getD, List.getD_eq_getElem?_getD,
      List.getElem?_eq_none hpast, List.getElem?_eq_none hpast] at hi
    exact hi rfl
  have hcheck : ∀ j < 16, bitAt [0x75, 0x6e] j ≠ bitAt [0xF5, 0x6f] j → 7 ≤ j ∧ j < 7 + 32 := by
    decide
  exact hcheck i hlt hi

end Unid.Spike
