import Unid.Lib.ByteMem
import Mathlib.Data.List.Chain

/-!
# Integers as byte arrays, and byte buffers

An integer of `n` bytes lies in the memory of a little-endian host least
significant byte first, and on the wire most significant byte first.  The two
orders are each other's reverse, so a program that swaps the bytes of an integer
and then copies its memory sends it in network order.

Buffers have a fixed length; copying past the end of one is a fault.

## Main definitions

* `hostBytes`, `ofHostBytes` — the memory of an integer.
* `byteswap` — the integer with its bytes reversed.
* `networkBytes` — most significant byte first.
* `copyTo`, `memcpyFrom` — bytes into a buffer, and an integer out of one.
-/

namespace Unid.Lib

variable {n m : ℕ}

/-! ## Byte order -/

/-- The bytes of an integer in the memory of a little-endian host. -/
def hostBytes (v : BitVec (8 * n)) : Vector Byte n :=
  .ofFn fun i => BitVec.ofNat 8 (v.toNat / 256 ^ i.val)

/-- The integer whose memory on a little-endian host is `bs`. -/
def ofHostBytes (bs : Vector Byte n) : BitVec (8 * n) :=
  BitVec.ofNat (8 * n) (readLE (fun i => bs[i]?.getD 0) 0 n)

/-- The integer with its bytes in reverse order. -/
def byteswap (v : BitVec (8 * n)) : BitVec (8 * n) := ofHostBytes (hostBytes v).reverse

/-- The bytes of an integer, most significant first. -/
def networkBytes (v : BitVec (8 * n)) : Vector Byte n :=
  .ofFn fun i => BitVec.ofNat 8 (v.toNat / 256 ^ (n - 1 - i.val))

theorem two_pow_bytes (n : ℕ) : 2 ^ (8 * n) = 256 ^ n := pow_mul 2 8 n

theorem toNat_ofHostBytes (bs : Vector Byte n) :
    (ofHostBytes bs).toNat = readLE (fun i => bs[i]?.getD 0) 0 n := by
  rw [ofHostBytes, BitVec.toNat_ofNat, two_pow_bytes]
  exact Nat.mod_eq_of_lt (readLE_lt _ 0 n)

@[simp] theorem ofHostBytes_hostBytes (v : BitVec (8 * n)) : ofHostBytes (hostBytes v) = v := by
  apply BitVec.eq_of_toNat_eq
  have hread : readLE (fun i => (hostBytes v)[i]?.getD 0) 0 n = v.toNat % 256 ^ n := by
    apply readLE_of_digits
    intro i hi
    simp [hostBytes, hi]
  rw [toNat_ofHostBytes, hread, ← two_pow_bytes]
  exact Nat.mod_eq_of_lt v.isLt

@[simp] theorem hostBytes_ofHostBytes (bs : Vector Byte n) : hostBytes (ofHostBytes bs) = bs := by
  apply Vector.ext
  intro i hi
  rw [hostBytes, Vector.getElem_ofFn, toNat_ofHostBytes, digit_readLE _ hi]
  simp [hi]

@[simp] theorem hostBytes_byteswap (v : BitVec (8 * n)) :
    hostBytes (byteswap v) = (hostBytes v).reverse :=
  hostBytes_ofHostBytes _

@[simp] theorem byteswap_byteswap (v : BitVec (8 * n)) : byteswap (byteswap v) = v := by
  rw [byteswap, hostBytes_byteswap, Vector.reverse_reverse, ofHostBytes_hostBytes]

/-- Network order is host order backwards. -/
theorem reverse_hostBytes (v : BitVec (8 * n)) : (hostBytes v).reverse = networkBytes v := by
  apply Vector.ext
  intro i hi
  simp [hostBytes, networkBytes]

/-- Swapping the bytes and looking at the memory gives network order. -/
theorem hostBytes_byteswap_eq (v : BitVec (8 * n)) :
    hostBytes (byteswap v) = networkBytes v := by
  rw [hostBytes_byteswap, reverse_hostBytes]

/-- Memory in network order holds the swapped integer. -/
theorem ofHostBytes_networkBytes (v : BitVec (8 * n)) :
    ofHostBytes (networkBytes v) = byteswap v := by
  rw [byteswap, reverse_hostBytes]

/-- Any bytes are some integer in network order. -/
theorem exists_networkBytes (bs : Vector Byte n) : ∃ v, networkBytes v = bs := by
  refine ⟨byteswap (ofHostBytes bs), ?_⟩
  rw [← hostBytes_byteswap_eq, byteswap_byteswap, hostBytes_ofHostBytes]

/-- The first bytes of a string, as an integer in network order. -/
theorem exists_networkBytes_append {k : ℕ} {bs : List Byte} (h : bs.length = n + k) :
    ∃ (v : BitVec (8 * n)) (rest : List Byte), bs = (networkBytes v).toList ++ rest ∧
      rest.length = k := by
  obtain ⟨v, hv⟩ := exists_networkBytes (⟨(bs.take n).toArray, by simp [h]⟩ : Vector Byte n)
  refine ⟨v, bs.drop n, ?_, by simp [h]⟩
  rw [hv]
  exact (List.take_append_drop n bs).symm

/-! ## Buffers -/

/-- `std::copy` into `dst` from position `i` on: the buffer and the position after the last byte
copied, or nothing when the buffer ends before. -/
def copyTo (dst : Vector Byte m) (i : ℕ) : List Byte → Option (Vector Byte m × ℕ)
  | [] => some (dst, i)
  | b :: bs => if h : i < m then copyTo (dst.set i b h) (i + 1) bs else none

/-- `std::memcpy` of the `n` bytes at offset `i` of `buf` into an integer. -/
def memcpyFrom (n : ℕ) (buf : Vector Byte m) (i : ℕ) : Option (BitVec (8 * n)) :=
  if h : i + n ≤ m then some (ofHostBytes (.ofFn fun k : Fin n => buf.get ⟨i + k, by omega⟩))
  else none

/-- The first `i` bytes of the buffer are `done`. -/
structure Filled (buf : Vector Byte m) (i : ℕ) (done : List Byte) : Prop where
  length_eq : done.length = i
  starts : done <+: buf.toList

namespace Filled
variable {buf : Vector Byte m} {i : ℕ} {done : List Byte}

theorem zero (buf : Vector Byte m) : Filled buf 0 [] := ⟨rfl, List.nil_prefix⟩

theorem set (F : Filled buf i done) (b : Byte) (hi : i < m) :
    Filled (buf.set i b hi) (i + 1) (done ++ [b]) := by
  obtain ⟨hlen, rest, hrest⟩ := F
  cases rest with
  | nil =>
      have := congrArg List.length hrest
      simp at this
      omega
  | cons r rest =>
      refine ⟨by simp [hlen], rest, ?_⟩
      simp [Vector.toList_set, ← hrest, ← hlen]

/-- Copying goes on where the last copy ended. -/
theorem copyTo (F : Filled buf i done) (bs : List Byte) (hfit : i + bs.length ≤ m) :
    ∃ out, Lib.copyTo buf i bs = some (out, i + bs.length) ∧
      Filled out (i + bs.length) (done ++ bs) := by
  induction bs generalizing buf i done with
  | nil => exact ⟨buf, rfl, by simpa using F⟩
  | cons b bs ih =>
      rw [List.length_cons] at hfit
      have hi : i < m := by omega
      obtain ⟨out, hcopy, F'⟩ := ih (F.set b hi) (by omega)
      rw [add_assoc, add_comm 1] at hcopy F'
      refine ⟨out, ?_, by simpa using F'⟩
      rw [Lib.copyTo, dif_pos hi]
      exact hcopy

/-- A buffer that has been filled. -/
theorem eq_toList (F : Filled buf m done) : buf.toList = done :=
  (F.starts.eq_of_length (by simp [F.length_eq])).symm

end Filled

/-- What an integer is read from. -/
theorem memcpyFrom_eq {buf : Vector Byte m} {i : ℕ} {bs : Vector Byte n} (hfit : i + n ≤ m)
    (hslice : (buf.toList.drop i).take n = bs.toList) :
    memcpyFrom n buf i = some (ofHostBytes bs) := by
  rw [memcpyFrom, dif_pos hfit]
  congr 2
  apply Vector.ext
  intro k hk
  have hget : buf[i + k]? = some bs[k] := by
    have hnth := congrArg (·[k]?) hslice
    simpa [hk] using hnth
  obtain ⟨hlt, heq⟩ := Vector.getElem?_eq_some_iff.mp hget
  rw [Vector.getElem_ofFn]
  exact heq

/-- Of parts laid side by side, each is found at its offset. -/
theorem slice_of_adjacent {before : List Byte} {parts : List (ℕ × List Byte)}
    (hfirst : ∀ p ∈ parts.head?, p.1 = before.length)
    (hchain : parts.IsChain fun p q => p.1 + p.2.length = q.1) {p : ℕ × List Byte}
    (hp : p ∈ parts) :
    ((before ++ (parts.map Prod.snd).flatten).drop p.1).take p.2.length = p.2 := by
  induction parts generalizing before with
  | nil => exact absurd hp List.not_mem_nil
  | cons q parts ih =>
      have hq : q.1 = before.length := hfirst q rfl
      rw [List.map_cons, List.flatten_cons]
      rcases List.mem_cons.mp hp with rfl | hp
      · rw [hq, List.drop_left, List.take_left]
      · rw [← List.append_assoc]
        refine ih ?_ hchain.tail hp
        intro r hr
        rw [List.length_append, ← hq]
        exact (hchain.rel_head? hr).symm

end Unid.Lib
