import Unid.Common.PoolRep

/-!
# Building and extending a pool

`pool_new` and `pool_expand` obtain a node and an array, thread the array's
chunks into a list, and put that list in front of the free list.  The loop that
threads the chunks has one specification, used by both: afterwards every chunk
but the last points to its neighbour, and nothing outside the array has changed.
`Rep.grow` then says what a new array in front of the old ones represents,
without reference to the code.
-/

namespace Unid.Common
open Lib

/-- The second heap differs from the first only in the bytes of one block. -/
structure OnlyIn (b : Block) (h h' : Heap) : Prop where
  blocks : h'.blocks = h.blocks
  answers : h'.answers = h.answers
  faults : h'.faults = h.faults
  mem : ∀ x, x < b.base ∨ b.base + b.size ≤ x → h'.mem x = h.mem x

namespace OnlyIn
variable {b : Block} {h h' h'' : Heap}

theorem refl (b : Block) (h : Heap) : OnlyIn b h h := ⟨rfl, rfl, rfl, fun _ _ => rfl⟩

theorem trans (h₁ : OnlyIn b h h') (h₂ : OnlyIn b h' h'') : OnlyIn b h h'' :=
  ⟨h₂.blocks.trans h₁.blocks, h₂.answers.trans h₁.answers, h₂.faults.trans h₁.faults,
    fun x hx => (h₂.mem x hx).trans (h₁.mem x hx)⟩

theorem put {a : ℕ} (v : Word) (ha : b.Has a 8) : OnlyIn b h (h.put a v) := by
  obtain ⟨h₁, h₂⟩ := ha
  exact ⟨rfl, rfl, rfl, fun x hx => writeWord_of_disjoint _ _ (by omega)⟩

theorem mono {c : Block} (hb : OnlyIn b h h') (hc : c.Has b.base b.size) : OnlyIn c h h' := by
  obtain ⟨h₁, h₂⟩ := hc
  exact ⟨hb.blocks, hb.answers, hb.faults, fun x hx => hb.mem x (by omega)⟩

theorem readWord_eq {a : ℕ} (hb : OnlyIn b h h') (ha : a + 8 ≤ b.base ∨ b.base + b.size ≤ a) :
    readWord h'.mem a = readWord h.mem a :=
  readWord_congr fun x hlo hhi => hb.mem x (by omega)

end OnlyIn

/-! ## The linking loop -/

/-- The loop links the chunks `i`, …, `i + n - 1` to their successors and writes
nothing else. `sz` has to yield `S` in every heap the loop passes through. -/
theorem linkChunks_spec (sz : C Word) {arr S : Word} {N : ℕ} {h : Heap}
    (hfits : arr.toNat + N * S.toNat ≤ 2 ^ 64) (hS : 8 ≤ S.toNat)
    (hlive : ⟨arr.toNat, N * S.toNat⟩ ∈ h.blocks.live)
    (hsz : ∀ h', OnlyIn ⟨arr.toNat, N * S.toNat⟩ h h' → sz.val h' = S ∧ sz.state h' = h')
    (n i : ℕ) (hn : i + n < N) :
    let h' := (linkChunks sz arr n (BitVec.ofNat 64 i)).state h
    OnlyIn ⟨arr.toNat + i * S.toNat, n * S.toNat⟩ h h' ∧
      ∀ j, i ≤ j → j < i + n → link h'.mem (chunkAt arr S j) = chunkAt arr S (j + 1) := by
  induction n generalizing i h with
  | zero => exact ⟨OnlyIn.refl _ _, fun j hij hj => by omega⟩
  | succ n ih =>
      have haddr := toNat_chunkAt (i := i) hfits (by omega) (by omega)
      have hle : (i + 1 + n) * S.toNat ≤ N * S.toNat := Nat.mul_le_mul_right _ (by omega)
      rw [add_mul, add_mul, one_mul] at hle
      let h₁ := h.put (chunkAt arr S i).toNat (chunkAt arr S (i + 1))
      have hcov : h.blocks.Covers ((chunkAt arr S i).toNat + 0) 8 := by
        refine ⟨_, hlive, ?_, ?_⟩ <;> simp only [haddr] <;> omega
      have hin : OnlyIn ⟨arr.toNat, N * S.toNat⟩ h h₁ :=
        .put _ ⟨by simp only [haddr]; omega, by simp only [haddr]; omega⟩
      have hsz₀ := hsz h (.refl _ _)
      have hstep : (linkChunks sz arr (n + 1) (BitVec.ofNat 64 i)).state h =
          (linkChunks sz arr n (BitVec.ofNat 64 (i + 1))).state h₁ := by
        have hnext : BitVec.ofNat 64 i + 1 = BitVec.ofNat 64 (i + 1) := (BitVec.ofNat_add ..).symm
        simp only [linkChunks, Prog.state_bind, hsz₀.1, hsz₀.2, hnext]
        exact congrArg _ (C.state_store _ hcov)
      obtain ⟨hout, hlink⟩ := ih (h := h₁) hlive (fun h' h₁' => hsz h' (hin.trans h₁'))
        (i + 1) (by omega)
      rw [hstep]
      refine ⟨?_, ?_⟩
      · refine OnlyIn.trans (.put _ ⟨?_, ?_⟩) (hout.mono ⟨?_, ?_⟩)
        all_goals simp only [haddr, add_mul, one_mul]; omega
      · intro j hij hj
        by_cases hji : j = i
        · -- the rest of the loop stays above the chunk just linked
          subst hji
          rw [link, hout.readWord_eq (.inl (by simp only [haddr, add_mul, one_mul]; omega))]
          exact readWord_writeWord_self _ _ _
        · exact hlink j (by omega) (by omega)

/-- A positive `size_t` and its predecessor, as the loops use it. -/
theorem pred_word {N : Word} (hN : N ≠ 0) :
    ∃ n, N.toNat = n + 1 ∧ N - 1 = BitVec.ofNat 64 n ∧ (N - 1).toNat = n := by
  have hpos : N.toNat ≠ 0 := fun h0 => hN (BitVec.eq_of_toNat_eq h0)
  have hsub : (N - 1).toNat = N.toNat - 1 := BitVec.toNat_sub_of_le (BitVec.le_def.mpr (by
    change 1 ≤ _
    omega))
  refine ⟨N.toNat - 1, by omega, ?_, hsub⟩
  apply BitVec.eq_of_toNat_eq
  rw [hsub, BitVec.toNat_ofNat, Nat.mod_eq_of_lt (by have := N.isLt; omega)]

/-- The loop and the store of the last link thread a whole array, ending in `last`. -/
theorem linkArray_spec (sz : C Word) {arr S : Word} {n : ℕ} {h : Heap} (last : Word)
    (hfits : arr.toNat + (n + 1) * S.toNat ≤ 2 ^ 64) (hS : 8 ≤ S.toNat)
    (hlive : ⟨arr.toNat, (n + 1) * S.toNat⟩ ∈ h.blocks.live)
    (hsz : ∀ h', OnlyIn ⟨arr.toNat, (n + 1) * S.toNat⟩ h h' → sz.val h' = S ∧ sz.state h' = h') :
    let h₁ := (linkChunks sz arr n 0).state h
    let h' := h₁.put (chunkAt arr S n).toNat last
    OnlyIn ⟨arr.toNat, (n + 1) * S.toNat⟩ h h₁ ∧
      (C.store (chunkAt arr S n) 0 last).state h₁ = h' ∧
      OnlyIn ⟨arr.toNat, (n + 1) * S.toNat⟩ h h' ∧
      (∀ i < n, link h'.mem (chunkAt arr S i) = chunkAt arr S (i + 1)) ∧
      link h'.mem (chunkAt arr S n) = last := by
  intro h₁ h'
  have haddr := toNat_chunkAt (i := n) hfits (by omega) (by omega)
  obtain ⟨honly, hlink⟩ := linkChunks_spec sz hfits hS hlive hsz n 0 (by omega)
  have hin : OnlyIn ⟨arr.toNat, (n + 1) * S.toNat⟩ h h₁ := by
    refine honly.mono ⟨?_, ?_⟩ <;> simp only [zero_mul, add_mul] <;> omega
  have hhas : (⟨arr.toNat, (n + 1) * S.toNat⟩ : Block).Has (chunkAt arr S n).toNat 8 := by
    refine ⟨?_, ?_⟩ <;> simp only [haddr, add_mul] <;> omega
  refine ⟨hin, ?_, hin.trans (.put _ hhas), ?_, readWord_writeWord_self _ _ _⟩
  · refine C.state_store last ?_
    rw [hin.blocks]
    exact ⟨_, hlive, hhas⟩
  · intro i hi
    have hi' := toNat_chunkAt (i := i) hfits (by omega) (by omega)
    have hle := Nat.mul_le_mul_right S.toNat (Nat.succ_le_of_lt hi)
    rw [Nat.succ_eq_add_one, add_mul, one_mul] at hle
    rw [← hlink i (by omega) (by omega), link, link]
    exact readWord_writeWord_of_disjoint _ _ (by omega)

/-! ## A heap with room for one more array -/

/-- The `Pool` structure, a node and an array are live and apart: all that the stores of
`pool_new` and `pool_expand` touch once their allocations have succeeded. -/
structure Ready (pool S : Word) (a : Arr) (h : Heap) : Prop where
  pool_mem : poolBlock pool ∈ h.blocks.live
  node_mem : a.nodeBlock ∈ h.blocks.live
  data_mem : a.dataBlock S ∈ h.blocks.live
  node_pool : a.nodeBlock.Apart (poolBlock pool)
  data_pool : (a.dataBlock S).Apart (poolBlock pool)
  data_node : (a.dataBlock S).Apart a.nodeBlock

namespace Ready
variable {pool S : Word} {a : Arr} {h h' : Heap}

theorem of_live {l : List Block} (hpool : poolBlock pool ∈ l)
    (hlive : h.blocks.live = a.dataBlock S :: a.nodeBlock :: l) : Ready pool S a h := by
  have hapart := h.blocks.apart
  rw [hlive, List.pairwise_cons, List.pairwise_cons] at hapart
  refine ⟨?_, ?_, ?_, hapart.2.1 _ hpool, hapart.1 _ (by simp [hpool]), hapart.1 _ (by simp)⟩
  all_goals simp [hlive, hpool]

theorem load_pool (Y : Ready pool S a h) (off : ℕ) (hoff : off + 8 ≤ 24)
    (hb : h'.blocks = h.blocks) : (C.load pool off).state h' = h' :=
  C.state_load (hb ▸ ⟨_, Y.pool_mem, by simp [Block.Has, poolBlock]; omega⟩)

theorem store_pool (Y : Ready pool S a h) (off : ℕ) (hoff : off + 8 ≤ 24)
    (hb : h'.blocks = h.blocks) (v : Word) :
    (C.store pool off v).state h' = h'.put (pool.toNat + off) v :=
  C.state_store v (hb ▸ ⟨_, Y.pool_mem, by simp [Block.Has, poolBlock]; omega⟩)

theorem store_node (Y : Ready pool S a h) (off : ℕ) (hoff : off + 8 ≤ 16)
    (hb : h'.blocks = h.blocks) (v : Word) :
    (C.store a.node off v).state h' = h'.put (a.node.toNat + off) v :=
  C.state_store v (hb ▸ ⟨_, Y.node_mem, by simp [Block.Has, Arr.nodeBlock]; omega⟩)

/-- The members of `Pool` are not touched while the array is being linked. -/
theorem readWord_pool (Y : Ready pool S a h) (off : ℕ) (hoff : off + 8 ≤ 24)
    (hin : OnlyIn (a.dataBlock S) h h') :
    readWord h'.mem (pool.toNat + off) = readWord h.mem (pool.toNat + off) := by
  refine hin.readWord_eq ?_
  have := Y.data_pool.2
  simp only [poolBlock] at this
  omega

/-- The links of the array survive stores to the `Pool` structure and to the node. -/
theorem link_chunk {h₂ : Heap} (Y : Ready pool S a h) (hS : 8 ≤ S.toNat)
    (hframe : ∀ x, (pool.toNat ≤ x ∧ x < pool.toNat + 24) ∨
      (a.node.toNat ≤ x ∧ x < a.node.toNat + 16) ∨ h'.mem x = h₂.mem x)
    {i : ℕ} (hi : i < a.count) : link h'.mem (a.chunk S i) = link h₂.mem (a.chunk S i) := by
  have hpool := Y.data_pool.2
  have hnode := Y.data_node.2
  have haddr : (a.chunk S i).toNat = a.arr.toNat + i * S.toNat :=
    toNat_chunkAt (h.blocks.placed _ Y.data_mem).fits (by omega) hi
  have hle : (i + 1) * S.toNat ≤ a.count * S.toNat := Nat.mul_le_mul_right _ hi
  rw [add_mul, one_mul] at hle
  simp only [poolBlock, Arr.nodeBlock, Arr.dataBlock] at hpool hnode
  refine readWord_congr ?_
  intro x hlo hhi
  rcases hframe x with hx | hx | hx
  · omega
  · omega
  · exact hx

end Ready

/-! ## A new array in front -/

/-- The second heap has the chunks of `a` linked in front of the free list of the first,
and the node of `a` in front of its nodes; nothing else has changed. -/
structure Attached (pool S : Word) (a : Arr) (h h' : Heap) : Prop where
  faults : h'.faults = h.faults
  frame : ∀ x, (pool.toNat ≤ x ∧ x < pool.toNat + 16) ∨
    (a.node.toNat ≤ x ∧ x < a.node.toNat + 16) ∨
    (a.arr.toNat ≤ x ∧ x < a.arr.toNat + a.count * S.toNat) ∨ h'.mem x = h.mem x
  head : readWord h'.mem pool.toNat = a.arr
  starts : readWord h'.mem (pool.toNat + 8) = a.node
  next : link h'.mem a.node = readWord h.mem (pool.toNat + 8)
  arr : readWord h'.mem (a.node.toNat + 8) = a.arr
  link : ∀ i, i + 1 < a.count → link h'.mem (a.chunk S i) = a.chunk S (i + 1)
  last : ∀ i, i + 1 = a.count → Common.link h'.mem (a.chunk S i) = readWord h.mem pool.toNat

namespace Rep
variable {m : Mempool} {h h' : Heap} {S : Word} {free held : List Word} {arrays : List Arr}

theorem layout_grow {a : Arr} (R : Rep m h S free held arrays)
    (hlive : h'.blocks.live.Perm (a.blocks S ++ h.blocks.live)) :
    Layout m.pool S (a :: arrays) h'.blocks := by
  refine ⟨hlive.trans ?_, R.layout.link_le⟩
  calc (a.blocks S ++ h.blocks.live).Perm (a.blocks S ++ ownedBlocks m.pool S arrays) :=
        R.layout.live.append_left _
    _ |>.Perm (ownedBlocks m.pool S (a :: arrays)) := by
        simp [ownedBlocks, List.perm_middle]

/-- Attaching an array does not touch the blocks of the others. -/
theorem grow_keeps {a : Arr} (R : Rep m h S free held arrays) (T : Attached m.pool S a h h')
    (hlive : h'.blocks.live.Perm (a.blocks S ++ h.blocks.live)) {b : Arr} (hb : b ∈ arrays)
    {y : Block} (hy : y ∈ b.blocks S) {x : ℕ} (hlo : y.base ≤ x) (hhi : x < y.base + y.size) :
    h'.mem x = h.mem x := by
  have L := R.layout_grow hlive
  have hpool := (L.apart.1 b (List.mem_cons_of_mem a hb) y hy).2
  have hcross := (List.pairwise_cons.mp L.apart.2.2).1 b hb
  have hnode := (hcross a.nodeBlock (by simp [Arr.blocks]) y hy).2
  have hdata := (hcross (a.dataBlock S) (by simp [Arr.blocks]) y hy).2
  simp only [poolBlock, Arr.nodeBlock, Arr.dataBlock] at hpool hnode hdata
  rcases T.frame x with hx | hx | hx | hx
  · omega
  · omega
  · omega
  · exact hx

theorem grow_keeps_chunk {a : Arr} (R : Rep m h S free held arrays) (T : Attached m.pool S a h h')
    (hlive : h'.blocks.live.Perm (a.blocks S ++ h.blocks.live)) {c : Word}
    (hc : c ∈ chunksOf S arrays) {x : ℕ} (hlo : c.toNat ≤ x) (hhi : x < c.toNat + S.toNat) :
    h'.mem x = h.mem x := by
  obtain ⟨b, hb, i, hi, rfl⟩ := mem_chunksOf.mp hc
  obtain ⟨h₁, h₂⟩ := R.layout.data_has_chunk hb hi
  exact R.grow_keeps T hlive hb (y := b.dataBlock S) (by simp [Arr.blocks]) (by omega) (by omega)

/-- An attached array adds its chunks to the free ones. -/
theorem grow {a : Arr} (R : Rep m h S free held arrays) (T : Attached m.pool S a h h')
    {extraSz : Word} (hpos : 0 < a.count) (hextra : extraSz.toNat = a.count)
    (hlive : h'.blocks.live.Perm (a.blocks S ++ h.blocks.live)) :
    Rep { m with extraSz := m.extraSz + extraSz } h' S (a.chunks S ++ free) held (a :: arrays) := by
  have L := R.layout_grow hlive
  have ha : a ∈ a :: arrays := List.mem_cons_self
  have hchunk : ∀ d ∈ free, link h'.mem d = link h.mem d := by
    intro d hd
    have hS := R.layout.link_le
    exact readWord_congr fun x hlo hhi =>
      R.grow_keeps_chunk T hlive (R.free_mem hd) hlo (by omega)
  have hnodes : ∀ b ∈ arrays, ∀ off, off + 8 ≤ 16 →
      readWord h'.mem (b.node.toNat + off) = readWord h.mem (b.node.toNat + off) := by
    intro b hb off hoff
    exact readWord_congr fun x hlo hhi =>
      R.grow_keeps T hlive hb (y := b.nodeBlock) (by simp [Arr.blocks])
        (by simp [Arr.nodeBlock]; omega) (by simp [Arr.nodeBlock]; omega)
  refine ⟨L, ?_, ?_, ?_, ?_, ?_, ?_, R.fits, T.faults.trans R.clean⟩
  · change readWord h'.mem (m.pool.toNat + 16) = S
    rw [← R.stride]
    refine readWord_congr ?_
    intro x hlo hhi
    have hnode := (L.pool_node ha).2
    have hdata := (L.pool_data ha).2
    simp only [poolBlock, Arr.nodeBlock, Arr.dataBlock] at hnode hdata
    rcases T.frame x with hx | hx | hx | hx
    · omega
    · omega
    · omega
    · exact hx
  · have hzero : a.arr = a.chunk S 0 := by simp [Arr.chunk, chunkAt]
    obtain ⟨n, hn⟩ : ∃ n, a.count = n + 1 := ⟨a.count - 1, by omega⟩
    change Chain _ _ (readWord h'.mem m.pool.toNat) _
    rw [T.head, hzero, Arr.chunks, hn]
    refine R.chain.prepend ?_ (fun i hi => T.link i (by omega)) (T.last n hn.symm) hchunk
    intro i hi
    exact L.chunk_ne_null (mem_chunksOf.mpr ⟨a, ha, i, by omega, rfl⟩)
  · refine ⟨T.starts, ?_, ?_⟩
    · intro hnull
      exact (h'.blocks.placed _ (L.node_mem ha)).ne_null (by simp [Arr.nodeBlock, hnull, NULL])
    · rw [T.next]
      refine R.nodes.congr ?_
      intro p hp
      obtain ⟨b, hb, rfl⟩ := List.mem_map.mp hp
      exact hnodes b hb 0 (by omega)
  · intro b hb
    rcases List.mem_cons.mp hb with rfl | hb
    · exact T.arr
    · rw [hnodes b hb 8 (by omega), R.arrs b hb]
  · simpa [chunksOf] using R.parts.append_left (a.chunks S)
  · have hlen := L.length_chunksOf_lt
    rw [length_chunksOf, List.map_cons, List.sum_cons, ← R.counts] at hlen
    have hadd : (m.extraSz + extraSz).toNat = m.extraSz.toNat + extraSz.toNat := by
      rw [BitVec.toNat_add, Nat.mod_eq_of_lt (by omega)]
    have hsum := R.counts
    simp only [List.map_cons, List.sum_cons, hadd]
    omega

/-- The first array is an extension of the pool that has none: in the heap `h₀`, both
lists are empty. -/
theorem first {a : Arr} (hpos : 0 < a.count) (hpool : m.poolSz.toNat = a.count)
    (hextra : m.extraSz = 0) (hfits : m.chunkSz.toNat ≤ S.toNat) (hS : 8 ≤ S.toNat)
    (hlive : h'.blocks.live.Perm (a.blocks S ++ [poolBlock m.pool])) (hfaults : h'.faults = [])
    (hstride : readWord h'.mem (m.pool.toNat + 16) = S)
    (T : ∀ h₀ : Heap, h₀.faults = h'.faults → readWord h₀.mem m.pool.toNat = NULL →
      readWord h₀.mem (m.pool.toNat + 8) = NULL →
      (∀ x, (m.pool.toNat ≤ x ∧ x < m.pool.toNat + 16) ∨ h'.mem x = h₀.mem x) →
      Attached m.pool S a h₀ h') : Rep m h' S (a.chunks S) [] [a] := by
  have hplaced : (poolBlock m.pool).Placed :=
    h'.blocks.placed _ (hlive.mem_iff.mpr (by simp))
  let m₀ : Mempool := { m with poolSz := 0, extraSz := 0 }
  let h₀ : Heap := { h' with
    mem := writeWord (writeWord h'.mem m.pool.toNat NULL) (m.pool.toNat + 8) NULL
    blocks := BlockTable.empty.insert (poolBlock m.pool) ⟨hplaced, by simp [BlockTable.empty]⟩ }
  have hword₀ : readWord h₀.mem m.pool.toNat = NULL := by
    change readWord (writeWord _ _ _) _ = _
    rw [readWord_writeWord_of_disjoint _ _ (by omega), readWord_writeWord_self]
  have hword₈ : readWord h₀.mem (m.pool.toNat + 8) = NULL := readWord_writeWord_self _ _ _
  have hframe : ∀ x, (m.pool.toNat ≤ x ∧ x < m.pool.toNat + 16) ∨ h'.mem x = h₀.mem x := by
    intro x
    by_cases hx : m.pool.toNat ≤ x ∧ x < m.pool.toNat + 16
    · exact .inl hx
    · refine .inr ?_
      change _ = writeWord _ _ _ _
      rw [writeWord_of_disjoint _ _ (by omega), writeWord_of_disjoint _ _ (by omega)]
  have R₀ : Rep m₀ h₀ S [] [] [] := by
    refine ⟨⟨?_, hS⟩, ?_, hword₀, hword₈, by simp, by simp [chunksOf], by simp [m₀], hfits, hfaults⟩
    · simp [ownedBlocks, h₀, m₀, BlockTable.insert, BlockTable.empty]
    · change readWord (writeWord _ _ _) (m.pool.toNat + 16) = _
      rw [readWord_writeWord_of_disjoint _ _ (by omega),
        readWord_writeWord_of_disjoint _ _ (by omega), hstride]
  have R := R₀.grow (T h₀ rfl hword₀ hword₈ hframe) hpos hpool hlive
  refine ⟨R.layout, R.stride, ?_, R.nodes, R.arrs, ?_, ?_, hfits, hfaults⟩
  · simpa using R.chain
  · simpa using R.parts
  · have := R.counts
    simp [m₀] at this
    simpa [hextra] using this

end Rep

/-! ## `pool_expand` -/

/-- `pool_expand` from the linking loop on. -/
def attach (pool arrayStart extraArr extraSz : Word) : C Bool := do
  linkChunks (C.load pool offChunkSz) extraArr (extraSz - 1).toNat 0
  C.store (extraArr + (extraSz - 1) * (← C.load pool offChunkSz)) 0 (← C.load pool offFreeChunk)
  C.store pool offFreeChunk extraArr
  C.store arrayStart offArr extraArr
  C.store arrayStart offNext (← C.load pool offArrayStarts)
  C.store pool offArrayStarts arrayStart
  pure true

theorem poolExpand_eq (pool extraSz : Word) : poolExpand pool extraSz =
    (if pool = NULL ∨ extraSz = 0 then pure false
    else do
      let arrayStart ← poolExtAlloc sizeofArrayStart
      if arrayStart = NULL then pure false
      else do
        let extraArr ← poolExtAlloc (extraSz * (← C.load pool offChunkSz))
        if extraArr = NULL then do
          poolExtFree arrayStart
          pure false
        else attach pool arrayStart extraArr extraSz) := rfl

/-- What `attach` leaves behind, in terms of the heap `h₂` in which the array is linked. -/
theorem attach_run {pool S extraSz : Word} {a : Arr} {h : Heap} (Y : Ready pool S a h)
    (hstride : readWord h.mem (pool.toNat + 16) = S) (hS : 8 ≤ S.toNat) (hsz : extraSz ≠ 0)
    (hcount : a.count = extraSz.toNat) :
    ∃ h₂, OnlyIn (a.dataBlock S) h h₂ ∧
      (∀ i, i + 1 < a.count → link h₂.mem (a.chunk S i) = a.chunk S (i + 1)) ∧
      (∀ i, i + 1 = a.count → link h₂.mem (a.chunk S i) = readWord h.mem pool.toNat) ∧
      (attach pool a.node a.arr extraSz).val h = true ∧
      (attach pool a.node a.arr extraSz).state h =
        (((h₂.put pool.toNat a.arr).put (a.node.toNat + 8) a.arr).put a.node.toNat
          (readWord ((h₂.put pool.toNat a.arr).put (a.node.toNat + 8) a.arr).mem
            (pool.toNat + 8))).put (pool.toNat + 8) a.node := by
  obtain ⟨n, hn, hpred, hpred'⟩ := pred_word hsz
  have hdata : a.dataBlock S = ⟨a.arr.toNat, (n + 1) * S.toNat⟩ := by
    rw [← hn, ← hcount]
    rfl
  obtain ⟨hin₁, hstore, hin₂, hlink, hlast⟩ := linkArray_spec (C.load pool offChunkSz)
    (readWord h.mem pool.toNat) (hdata ▸ (h.blocks.placed _ Y.data_mem).fits) hS
    (hdata ▸ Y.data_mem) (by
      intro h' hin
      rw [← hdata] at hin
      refine ⟨?_, Y.load_pool _ (by simp) hin.blocks⟩
      rw [C.val_load, Y.readWord_pool _ (by simp) hin, hstride])
  rw [← hdata] at hin₁ hin₂
  generalize hh₁ : (linkChunks (C.load pool offChunkSz) a.arr n 0).state h = h₁
    at hin₁ hstore hin₂ hlink hlast
  generalize h₁.put (chunkAt a.arr S n).toNat (readWord h.mem pool.toNat) = h₂
    at hstore hin₂ hlink hlast
  have hb₁ := hin₁.blocks
  have hb₂ := hin₂.blocks
  have hstride₁ : readWord h₁.mem (pool.toNat + offChunkSz) = S :=
    (Y.readWord_pool _ (by simp) hin₁).trans hstride
  have hhead₁ : readWord h₁.mem (pool.toNat + offFreeChunk) = readWord h.mem pool.toNat :=
    Y.readWord_pool _ (by simp) hin₁
  have hlastChunk : a.arr + (extraSz - 1) * S = chunkAt a.arr S n := by rw [hpred]; rfl
  refine ⟨h₂, hin₂, fun i hi => hlink i (by omega), ?_, by simp [attach], ?_⟩
  · intro i hi
    obtain rfl : i = n := by omega
    exact hlast
  · simp only [attach, Prog.state_bind, hpred', hh₁, C.val_load, hstride₁, hlastChunk, hhead₁,
      hstore, Heap.blocks_put, hb₁, hb₂, Y.load_pool offChunkSz (by decide),
      Y.load_pool offFreeChunk (by decide), Y.load_pool offArrayStarts (by decide),
      Y.store_pool offFreeChunk (by decide), Y.store_pool offArrayStarts (by decide),
      Y.store_node offArr (by decide), Y.store_node offNext (by decide)]
    rfl

theorem attach_spec {pool S extraSz : Word} {a : Arr} {h : Heap} (Y : Ready pool S a h)
    (hstride : readWord h.mem (pool.toNat + 16) = S) (hS : 8 ≤ S.toNat) (hsz : extraSz ≠ 0)
    (hcount : a.count = extraSz.toNat) :
    (attach pool a.node a.arr extraSz).val h = true ∧
      ((attach pool a.node a.arr extraSz).state h).blocks = h.blocks ∧
      Attached pool S a h ((attach pool a.node a.arr extraSz).state h) := by
  obtain ⟨h₂, hin, hlink, hlast, hval, hstate⟩ := attach_run Y hstride hS hsz hcount
  have hnp := Y.node_pool.2
  simp only [poolBlock, Arr.nodeBlock] at hnp
  have hframe : ∀ x, (pool.toNat ≤ x ∧ x < pool.toNat + 16) ∨
      (a.node.toNat ≤ x ∧ x < a.node.toNat + 16) ∨
      ((attach pool a.node a.arr extraSz).state h).mem x = h₂.mem x := by
    intro x
    by_cases hpool : pool.toNat ≤ x ∧ x < pool.toNat + 16
    · exact .inl hpool
    by_cases hnode : a.node.toNat ≤ x ∧ x < a.node.toNat + 16
    · exact .inr (.inl hnode)
    · rw [hstate]
      simp (disch := omega) only [Heap.mem_put, writeWord_of_disjoint, or_true]
  have hchunk : ∀ i < a.count, link ((attach pool a.node a.arr extraSz).state h).mem (a.chunk S i) =
      link h₂.mem (a.chunk S i) := by
    intro i hi
    exact Y.link_chunk hS (fun x => (hframe x).imp_left fun hx => ⟨hx.1, by omega⟩) hi
  rw [hstate] at hframe hchunk ⊢
  refine ⟨hval, hin.blocks, hin.faults, ?_, ?_, ?_, ?_, ?_, ?_, ?_⟩
  · intro x
    by_cases hdata : a.arr.toNat ≤ x ∧ x < a.arr.toNat + a.count * S.toNat
    · exact .inr (.inr (.inl hdata))
    · have hx := hin.mem x (by simp only [Arr.dataBlock]; omega)
      rw [← hx]
      exact (hframe x).imp_right (Or.imp_right .inr)
  · simp (disch := omega) only [Heap.mem_put, readWord_writeWord_of_disjoint,
      readWord_writeWord_self]
  · simp only [Heap.mem_put, readWord_writeWord_self]
  · simp (disch := omega) only [link, Heap.mem_put, readWord_writeWord_of_disjoint,
      readWord_writeWord_self]
    exact Y.readWord_pool 8 (by omega) hin
  · simp (disch := omega) only [Heap.mem_put, readWord_writeWord_of_disjoint,
      readWord_writeWord_self]
  · intro i hi
    exact (hchunk i (by omega)).trans (hlink i hi)
  · intro i hi
    exact (hchunk i (by omega)).trans (hlast i hi)

end Unid.Common
