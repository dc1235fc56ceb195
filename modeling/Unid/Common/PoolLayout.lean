import Unid.Common.Mempool
import Mathlib.Data.List.Nodup
import Mathlib.Data.Finset.Card
import Mathlib.Order.Interval.Finset.Nat

/-!
# Where the parts of a pool lie

A pool owns its `Pool` structure and, for every call of `pool_new` or
`pool_expand`, one `ArrayStart` node and one chunk array.  `Layout` says that
these are exactly the live blocks.  From the block table's own invariant every
two parts are then apart, and so are any two chunks, within one array or across
arrays; the lemmas at the end state this as inequalities between addresses.

## Main definitions

* `Arr` — a node, its array, and how many chunks the array has.
* `Arr.chunk`, `chunksOf` — the chunks, addressed as the source does.
* `Layout` — the live blocks are those of the pool.
-/

namespace Unid.Common
open Lib

/-- A chunk array: its `ArrayStart` node, its base, and its number of chunks. -/
structure Arr where
  node : Word
  arr : Word
  count : ℕ
  deriving DecidableEq

/-- The `Pool` structure. -/
def poolBlock (pool : Word) : Block := ⟨pool.toNat, 24⟩

/-- The address `arr + i * chunk_sz`, in wrapping arithmetic. -/
def chunkAt (arr S : Word) (i : ℕ) : Word := arr + BitVec.ofNat 64 i * S

/-- In an array that lies in the address space the address of a chunk does not wrap. -/
theorem toNat_chunkAt {arr S : Word} {i n : ℕ} (hfits : arr.toNat + n * S.toNat ≤ 2 ^ 64)
    (hS : 0 < S.toNat) (hi : i < n) : (chunkAt arr S i).toNat = arr.toNat + i * S.toNat := by
  have hlt : i * S.toNat < n * S.toNat := Nat.mul_lt_mul_of_pos_right hi hS
  have hi' : i ≤ i * S.toNat := Nat.le_mul_of_pos_right i hS
  rw [chunkAt, BitVec.toNat_add, BitVec.toNat_mul, BitVec.toNat_ofNat,
    Nat.mod_eq_of_lt (show i < 2 ^ 64 by omega),
    Nat.mod_eq_of_lt (show i * S.toNat < 2 ^ 64 by omega), Nat.mod_eq_of_lt (by omega)]

/-- Distinct non-null addresses are fewer than the address space has. -/
theorem length_lt_of_nodup {l : List Word} (hl : l.Nodup) (hne : ∀ c ∈ l, c ≠ NULL) :
    l.length < 2 ^ 64 := by
  have hnodup : (l.map BitVec.toNat).Nodup := hl.map fun c d hcd => BitVec.eq_of_toNat_eq hcd
  have hsub : (l.map BitVec.toNat).toFinset ⊆ Finset.Ico 1 (2 ^ 64) := by
    intro x hx
    obtain ⟨c, hc, rfl⟩ := List.mem_map.mp (List.mem_toFinset.mp hx)
    have hpos : c.toNat ≠ 0 := fun h0 => hne c hc (BitVec.eq_of_toNat_eq h0)
    exact Finset.mem_Ico.mpr ⟨by omega, c.isLt⟩
  have hcard := Finset.card_le_card hsub
  rw [List.toFinset_card_of_nodup hnodup, List.length_map, Nat.card_Ico] at hcard
  omega

namespace Arr

def nodeBlock (a : Arr) : Block := ⟨a.node.toNat, 16⟩

def dataBlock (S : Word) (a : Arr) : Block := ⟨a.arr.toNat, a.count * S.toNat⟩

/-- The two blocks that belong to one array. -/
def blocks (S : Word) (a : Arr) : List Block := [a.nodeBlock, a.dataBlock S]

def chunk (S : Word) (a : Arr) (i : ℕ) : Word := chunkAt a.arr S i

def chunks (S : Word) (a : Arr) : List Word := (List.range a.count).map (a.chunk S)

end Arr

/-- All chunks of a list of arrays. -/
def chunksOf (S : Word) (arrays : List Arr) : List Word := arrays.flatMap (Arr.chunks S)

theorem mem_chunksOf {S c : Word} {arrays : List Arr} :
    c ∈ chunksOf S arrays ↔ ∃ a ∈ arrays, ∃ i < a.count, a.chunk S i = c := by
  simp [chunksOf, Arr.chunks]

theorem length_chunksOf (S : Word) (arrays : List Arr) :
    (chunksOf S arrays).length = (arrays.map Arr.count).sum := by
  simp [chunksOf, Arr.chunks, List.length_flatMap]

/-- The blocks a pool owns. -/
def ownedBlocks (pool S : Word) (arrays : List Arr) : List Block :=
  poolBlock pool :: arrays.flatMap (Arr.blocks S)

/-- The live blocks are exactly the pool's, and a chunk holds at least a link. -/
structure Layout (pool S : Word) (arrays : List Arr) (t : BlockTable) : Prop where
  live : t.live.Perm (ownedBlocks pool S arrays)
  link_le : 8 ≤ S.toNat

namespace Layout
variable {pool S : Word} {arrays : List Arr} {t : BlockTable}

theorem mem_live (L : Layout pool S arrays t) {b : Block} (hb : b ∈ ownedBlocks pool S arrays) :
    b ∈ t.live := L.live.mem_iff.mpr hb

theorem pool_mem (L : Layout pool S arrays t) : poolBlock pool ∈ t.live :=
  L.mem_live (by simp [ownedBlocks])

theorem node_mem (L : Layout pool S arrays t) {a : Arr} (ha : a ∈ arrays) : a.nodeBlock ∈ t.live :=
  L.mem_live (by simpa [ownedBlocks, Arr.blocks] using .inr ⟨a, ha, .inl rfl⟩)

theorem data_mem (L : Layout pool S arrays t) {a : Arr} (ha : a ∈ arrays) :
    a.dataBlock S ∈ t.live :=
  L.mem_live (by simpa [ownedBlocks, Arr.blocks] using .inr ⟨a, ha, .inr rfl⟩)

/-- The owned blocks do not overlap: the pool and each array, the two blocks of one
array, and the blocks of two arrays. -/
theorem apart (L : Layout pool S arrays t) :
    (∀ a ∈ arrays, ∀ b ∈ a.blocks S, (poolBlock pool).Apart b) ∧
      (∀ a ∈ arrays, a.nodeBlock.Apart (a.dataBlock S)) ∧
      arrays.Pairwise fun a b => ∀ x ∈ a.blocks S, ∀ y ∈ b.blocks S, x.Apart y := by
  have h := (L.live.pairwise_iff Block.Apart.symm).mp t.apart
  rw [ownedBlocks, List.pairwise_cons, List.pairwise_flatMap] at h
  obtain ⟨hpool, hown, hcross⟩ := h
  refine ⟨?_, ?_, hcross⟩
  · intro a ha b hb
    exact hpool b (List.mem_flatMap.mpr ⟨a, ha, hb⟩)
  · intro a ha
    simpa [Arr.blocks] using hown a ha

theorem pool_node (L : Layout pool S arrays t) {a : Arr} (ha : a ∈ arrays) :
    (poolBlock pool).Apart a.nodeBlock := L.apart.1 a ha _ (by simp [Arr.blocks])

theorem pool_data (L : Layout pool S arrays t) {a : Arr} (ha : a ∈ arrays) :
    (poolBlock pool).Apart (a.dataBlock S) := L.apart.1 a ha _ (by simp [Arr.blocks])

theorem arr_arr (L : Layout pool S arrays t) {a b : Arr} (ha : a ∈ arrays) (hb : b ∈ arrays)
    (hab : a ≠ b) : ∀ x ∈ a.blocks S, ∀ y ∈ b.blocks S, x.Apart y := by
  have : Std.Symm fun a b : Arr => ∀ x ∈ a.blocks S, ∀ y ∈ b.blocks S, x.Apart y :=
    ⟨fun a b h x hx y hy => (h y hy x hx).symm⟩
  exact L.apart.2.2.forall ha hb hab

theorem data_data (L : Layout pool S arrays t) {a b : Arr} (ha : a ∈ arrays) (hb : b ∈ arrays)
    (hab : a ≠ b) : (a.dataBlock S).Apart (b.dataBlock S) :=
  L.arr_arr ha hb hab _ (by simp [Arr.blocks]) _ (by simp [Arr.blocks])

theorem node_data (L : Layout pool S arrays t) {a b : Arr} (ha : a ∈ arrays) (hb : b ∈ arrays) :
    a.nodeBlock.Apart (b.dataBlock S) := by
  by_cases hab : a = b
  · subst hab
    exact L.apart.2.1 a ha
  · exact L.arr_arr ha hb hab _ (by simp [Arr.blocks]) _ (by simp [Arr.blocks])

/-! ## Chunks -/

/-- Inside its array the address of a chunk does not wrap. -/
theorem toNat_chunk (L : Layout pool S arrays t) {a : Arr} (ha : a ∈ arrays) {i : ℕ}
    (hi : i < a.count) : (a.chunk S i).toNat = a.arr.toNat + i * S.toNat := by
  have hS : 8 ≤ S.toNat := L.link_le
  exact toNat_chunkAt (t.placed _ (L.data_mem ha)).fits (by omega) hi

/-- A chunk lies inside its array's block. -/
theorem data_has_chunk (L : Layout pool S arrays t) {a : Arr} (ha : a ∈ arrays) {i : ℕ}
    (hi : i < a.count) : (a.dataBlock S).Has (a.chunk S i).toNat S.toNat := by
  have hle : (i + 1) * S.toNat ≤ a.count * S.toNat := Nat.mul_le_mul_right _ hi
  rw [add_mul, one_mul] at hle
  rw [L.toNat_chunk ha hi]
  refine ⟨?_, ?_⟩ <;> simp only [Arr.dataBlock] <;> omega

/-- Two different chunks do not overlap, in the same array or in two. -/
theorem chunk_chunk (L : Layout pool S arrays t) {c d : Word} (hc : c ∈ chunksOf S arrays)
    (hd : d ∈ chunksOf S arrays) (hcd : c ≠ d) :
    c.toNat + S.toNat ≤ d.toNat ∨ d.toNat + S.toNat ≤ c.toNat := by
  obtain ⟨a, ha, i, hi, rfl⟩ := mem_chunksOf.mp hc
  obtain ⟨b, hb, j, hj, rfl⟩ := mem_chunksOf.mp hd
  by_cases hab : a = b
  · subst hab
    rw [L.toNat_chunk ha hi, L.toNat_chunk ha hj]
    rcases Nat.lt_trichotomy i j with hij | rfl | hij
    · have := Nat.mul_le_mul_right S.toNat (Nat.succ_le_of_lt hij)
      rw [Nat.succ_eq_add_one, add_mul, one_mul] at this
      omega
    · exact absurd rfl hcd
    · have := Nat.mul_le_mul_right S.toNat (Nat.succ_le_of_lt hij)
      rw [Nat.succ_eq_add_one, add_mul, one_mul] at this
      omega
  · exact (L.data_data ha hb hab).disjoint (L.data_has_chunk ha hi) (L.data_has_chunk hb hj)

theorem pool_chunk (L : Layout pool S arrays t) {c : Word} (hc : c ∈ chunksOf S arrays) :
    pool.toNat + 24 ≤ c.toNat ∨ c.toNat + S.toNat ≤ pool.toNat := by
  obtain ⟨a, ha, i, hi, rfl⟩ := mem_chunksOf.mp hc
  exact (L.pool_data ha).disjoint (a := pool.toNat) (n := 24) ⟨le_rfl, le_rfl⟩
    (L.data_has_chunk ha hi)

theorem node_chunk (L : Layout pool S arrays t) {a : Arr} {c : Word} (ha : a ∈ arrays)
    (hc : c ∈ chunksOf S arrays) :
    a.node.toNat + 16 ≤ c.toNat ∨ c.toNat + S.toNat ≤ a.node.toNat := by
  obtain ⟨b, hb, i, hi, rfl⟩ := mem_chunksOf.mp hc
  exact (L.node_data ha hb).disjoint (a := a.node.toNat) (n := 16) ⟨le_rfl, le_rfl⟩
    (L.data_has_chunk hb hi)

theorem chunk_ne_null (L : Layout pool S arrays t) {c : Word} (hc : c ∈ chunksOf S arrays) :
    c ≠ NULL := by
  obtain ⟨a, ha, i, hi, rfl⟩ := mem_chunksOf.mp hc
  intro hnull
  have hzero := congrArg BitVec.toNat hnull
  rw [L.toNat_chunk ha hi] at hzero
  have hbase : a.arr.toNat ≠ 0 := (t.placed _ (L.data_mem ha)).ne_null
  simp [NULL] at hzero
  omega

/-- No chunk is listed twice. -/
theorem nodup_chunksOf (L : Layout pool S arrays t) : (chunksOf S arrays).Nodup := by
  have hS : 8 ≤ S.toNat := L.link_le
  rw [chunksOf, List.nodup_flatMap]
  refine ⟨?_, L.apart.2.2.imp_of_mem ?_⟩
  · intro a ha
    refine List.Nodup.map_on ?_ List.nodup_range
    intro i hi j hj hij
    have heq := congrArg BitVec.toNat hij
    rw [L.toNat_chunk ha (List.mem_range.mp hi), L.toNat_chunk ha (List.mem_range.mp hj)] at heq
    exact Nat.eq_of_mul_eq_mul_right (by omega) (Nat.add_left_cancel heq)
  · intro a b ha hb hab c hca hcb
    obtain ⟨i, hi, rfl⟩ := List.mem_map.mp hca
    obtain ⟨j, hj, hij⟩ := List.mem_map.mp hcb
    have hdata := hab (a.dataBlock S) (by simp [Arr.blocks]) (b.dataBlock S) (by simp [Arr.blocks])
    have hhas := L.data_has_chunk hb (List.mem_range.mp hj)
    rw [hij] at hhas
    have := hdata.disjoint (L.data_has_chunk ha (List.mem_range.mp hi)) hhas
    omega

/-- The chunks fit in the address space, so their number is a `size_t`. -/
theorem length_chunksOf_lt (L : Layout pool S arrays t) :
    (chunksOf S arrays).length < 2 ^ 64 :=
  length_lt_of_nodup L.nodup_chunksOf fun _ hc => L.chunk_ne_null hc

/-! ## Accesses inside the pool's blocks -/

theorem covers_pool (L : Layout pool S arrays t) {off : ℕ} (hoff : off + 8 ≤ 24) :
    t.Covers (pool.toNat + off) 8 :=
  ⟨_, L.pool_mem, by simp [Block.Has, poolBlock]; omega⟩

theorem covers_chunk (L : Layout pool S arrays t) {c : Word} (hc : c ∈ chunksOf S arrays) :
    t.Covers c.toNat 8 := by
  obtain ⟨a, ha, i, hi, rfl⟩ := mem_chunksOf.mp hc
  have hS : 8 ≤ S.toNat := L.link_le
  obtain ⟨h₁, h₂⟩ := L.data_has_chunk ha hi
  exact ⟨_, L.data_mem ha, by omega, by omega⟩

end Layout
end Unid.Common
