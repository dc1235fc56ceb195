import Unid.Common.PoolGrow

/-!
# The life of a pool

What `pool_new`, `pool_expand` and `pool_destroy` do, for every outcome of their
allocations.  Whether a call succeeds is decided by its size argument and by the
answers of `pool_ext_alloc` alone (`NewGranted`, `ExpandGranted`).  A call of
`pool_expand` that fails leaves the pool as it was; a call of `pool_new` that
fails gives back what it had obtained; `pool_destroy` gives back everything.

## Main results

* `toNat_align2Boundary` — the rounded chunk size.
* `Rep.poolExpand_refused`, `Rep.rep_poolExpand` — the two outcomes of `pool_expand`.
* `poolNew_refused`, `rep_poolNew` — the two outcomes of `pool_new`.
* `Rep.poolDestroy_spec` — `pool_destroy` leaves no block behind.
-/

namespace Unid.Common
open Lib

/-! ## The rounded chunk size -/

/-- Clearing the low three bits. -/
theorem and_not_seven (x : Word) : x &&& ~~~(7 : Word) = x >>> 3 <<< 3 := by
  ext i hi
  have hseven : (7 : Word)[i] = decide (i < 3) := by
    change (BitVec.ofNat 64 (2 ^ 3 - 1))[i] = _
    rw [← BitVec.getLsbD_eq_getElem, BitVec.getLsbD_ofNat, Nat.testBit_two_pow_sub_one]
    simp [hi]
  rw [BitVec.getElem_and, BitVec.getElem_not, hseven]
  by_cases hlow : i < 3
  · simp [hlow]
  · simp [hlow, Nat.add_sub_cancel' (show 3 ≤ i by omega), BitVec.getLsbD_eq_getElem hi]

/-- The sum wraps, so a size in the last seven bytes of the range rounds to zero. -/
theorem toNat_align2Boundary (s : Word) :
    (align2Boundary s sizeofPtr).toNat = (s.toNat + 7) % 2 ^ 64 / 8 * 8 := by
  have hsum : (s + sizeofPtr - 1).toNat = (s.toNat + 7) % 2 ^ 64 := by
    simp only [sizeofPtr]
    bv_omega
  change ((s + sizeofPtr - 1) &&& ~~~(7 : Word)).toNat = _
  rw [and_not_seven, BitVec.toNat_shiftLeft, BitVec.toNat_ushiftRight, hsum,
    Nat.shiftRight_eq_div_pow, Nat.shiftLeft_eq]
  omega

/-! ## `pool_expand` -/

/-- Both allocations of `pool_expand(pool, extra_sz)` succeed. -/
def ExpandGranted (pool extraSz : Word) (h : Heap) : Prop :=
  (h.extAlloc sizeofArrayStart).1 ≠ NULL ∧
    ((h.extAlloc sizeofArrayStart).2.extAlloc
      (extraSz * readWord h.mem (pool.toNat + offChunkSz))).1 ≠ NULL

instance (pool extraSz : Word) (h : Heap) : Decidable (ExpandGranted pool extraSz h) :=
  inferInstanceAs (Decidable (_ ∧ _))

/-- When `pool_expand` reports success, in any heap. -/
theorem val_poolExpand (pool extraSz : Word) (h : Heap) :
    (poolExpand pool extraSz).val h =
      decide (pool ≠ NULL ∧ extraSz ≠ 0 ∧ ExpandGranted pool extraSz h) := by
  by_cases hpool : pool = NULL
  · simp [poolExpand, hpool]
  by_cases hsz : extraSz = 0
  · simp [poolExpand, hsz]
  have hattach : ∀ arrayStart extraArr h',
      (attach pool arrayStart extraArr extraSz).val h' = true := by simp [attach]
  have hcongr := (Heap.extAlloc_congr
    (C.blocks_load pool offChunkSz (h.extAlloc sizeofArrayStart).2)
    (C.answers_load pool offChunkSz (h.extAlloc sizeofArrayStart).2)
    (extraSz * readWord h.mem (pool.toNat + offChunkSz))).1
  rw [poolExpand_eq, if_neg (not_or_intro hpool hsz)]
  simp only [Prog.val_bind, Prog.val_ite, val_poolExtAlloc, state_poolExtAlloc,
    C.val_load, Heap.mem_extAlloc, hcongr, hattach, Prog.monad_pure_eq, Prog.val_ret]
  by_cases hnode : (h.extAlloc sizeofArrayStart).1 = NULL <;>
    simp [ExpandGranted, hpool, show ¬ extraSz = 0#64 from hsz, hnode]

/-- The heap `pool_expand` leaves behind, by the outcome of its two allocations. -/
theorem state_poolExpand {pool extraSz : Word} {h : Heap} (hpool : poolBlock pool ∈ h.blocks.live)
    (hsz : extraSz ≠ 0) :
    (poolExpand pool extraSz).state h =
      let r := h.extAlloc sizeofArrayStart
      let q := r.2.extAlloc (extraSz * readWord h.mem (pool.toNat + offChunkSz))
      if r.1 = NULL then r.2
      else if q.1 = NULL then q.2.extFree r.1
      else (attach pool r.1 q.1 extraSz).state q.2 := by
  have hnull : pool ≠ NULL := by
    rintro rfl
    exact (h.blocks.placed _ hpool).ne_null rfl
  rw [poolExpand_eq, if_neg (not_or_intro hnull hsz)]
  by_cases hnode : (h.extAlloc sizeofArrayStart).1 = NULL
  · simp [hnode]
  · have hload : (C.load pool offChunkSz).state (h.extAlloc sizeofArrayStart).2 =
        (h.extAlloc sizeofArrayStart).2 := by
      refine C.state_load ⟨poolBlock pool, ?_, by simp [Block.Has, poolBlock]⟩
      rw [Heap.live_extAlloc hnode]
      exact List.mem_cons_of_mem _ hpool
    simp only [Prog.state_bind, val_poolExtAlloc, state_poolExtAlloc, if_neg hnode, C.val_load,
      Heap.mem_extAlloc, hload, Prog.state_ite, state_poolExtFree, Prog.monad_pure_eq,
      Prog.state_ret]

/-- What `pool_expand` obtains when both of its allocations succeed. -/
def grantedArr (pool extraSz : Word) (h : Heap) : Arr where
  node := (h.extAlloc sizeofArrayStart).1
  arr := ((h.extAlloc sizeofArrayStart).2.extAlloc
    (extraSz * readWord h.mem (pool.toNat + offChunkSz))).1
  count := extraSz.toNat

namespace Attached
variable {pool S : Word} {a : Arr} {h h₁ h' : Heap}

theorem congr_left (T : Attached pool S a h₁ h') (hmem : h₁.mem = h.mem)
    (hfaults : h₁.faults = h.faults) : Attached pool S a h h' := by
  obtain ⟨faults, frame, head, starts, next, arr, link, last⟩ := T
  rw [hmem] at frame next last
  exact ⟨faults.trans hfaults, frame, head, starts, next, arr, link, last⟩

end Attached

namespace Rep
variable {m : Mempool} {h h' : Heap} {S : Word} {free held : List Word} {arrays : List Arr}

/-- A successful `pool_expand` puts the chunks of a new array in front of the free list, and
does not write into the chunks there were. -/
theorem rep_poolExpand (R : Rep m h S free held arrays) {extraSz : Word} (hsz : extraSz ≠ 0)
    (hgrant : ExpandGranted m.pool extraSz h) (hfit : extraSz.toNat * S.toNat < 2 ^ 64) :
    let a := grantedArr m.pool extraSz h
    Rep { m with extraSz := m.extraSz + extraSz } ((poolExpand m.pool extraSz).state h) S
        (a.chunks S ++ free) held (a :: arrays) ∧
      ∀ c ∈ chunksOf S arrays, ∀ x, c.toNat ≤ x → x < c.toNat + S.toNat →
        ((poolExpand m.pool extraSz).state h).mem x = h.mem x := by
  intro a
  obtain ⟨hnode, harr⟩ := hgrant
  let h₂ := ((h.extAlloc sizeofArrayStart).2.extAlloc
    (extraSz * readWord h.mem (m.pool.toNat + offChunkSz))).2
  have hS : readWord h.mem (m.pool.toNat + offChunkSz) = S := R.stride
  have hlive : h₂.blocks.live = a.dataBlock S :: a.nodeBlock :: h.blocks.live := by
    have hbytes : (extraSz * readWord h.mem (m.pool.toNat + offChunkSz)).toNat =
        extraSz.toNat * S.toNat := by rw [hS, BitVec.toNat_mul, Nat.mod_eq_of_lt hfit]
    rw [Heap.live_extAlloc harr, Heap.live_extAlloc hnode, hbytes]
    rfl
  have hmem : h₂.mem = h.mem := by simp [h₂]
  have hfaults : h₂.faults = h.faults := by simp [h₂]
  have hstate : (poolExpand m.pool extraSz).state h =
      (attach m.pool a.node a.arr extraSz).state h₂ := by
    rw [state_poolExpand R.layout.pool_mem hsz]
    simp only [if_neg hnode, if_neg harr]
    rfl
  have Y : Ready m.pool S a h₂ := .of_live R.layout.pool_mem hlive
  obtain ⟨-, hblocks, T⟩ := attach_spec Y (hmem ▸ hS) R.layout.link_le hsz rfl
  have T' := T.congr_left hmem hfaults
  have hperm : ((attach m.pool a.node a.arr extraSz).state h₂).blocks.live.Perm
      (a.blocks S ++ h.blocks.live) := by
    rw [hblocks, hlive]
    exact .swap ..
  rw [hstate]
  refine ⟨R.grow T' ?_ rfl hperm, ?_⟩
  · exact Nat.pos_of_ne_zero fun h0 => hsz (BitVec.eq_of_toNat_eq h0)
  · intro c hc x hlo hhi
    exact R.grow_keeps_chunk T' hperm hc hlo hhi

/-- A `pool_expand` that fails has at most used up answers: the pool and every live block
are as before. -/
theorem poolExpand_refused (R : Rep m h S free held arrays) {extraSz : Word}
    (hno : ¬ (extraSz ≠ 0 ∧ ExpandGranted m.pool extraSz h)) :
    let h' := (poolExpand m.pool extraSz).state h
    h'.mem = h.mem ∧ h'.blocks.live.Perm h.blocks.live ∧ h'.faults = h.faults := by
  by_cases hsz : extraSz = 0
  · simp [poolExpand, hsz]
  have hgrant : ¬ ExpandGranted m.pool extraSz h := fun hg => hno ⟨hsz, hg⟩
  rw [state_poolExpand R.layout.pool_mem hsz]
  by_cases hnode : (h.extAlloc sizeofArrayStart).1 = NULL
  · simp [hnode, Heap.extAlloc_null hnode, Heap.withAnswers]
  by_cases harr : ((h.extAlloc sizeofArrayStart).2.extAlloc
      (extraSz * readWord h.mem (m.pool.toNat + offChunkSz))).1 = NULL
  · -- the node was obtained and goes back
    simp only [if_neg hnode, if_pos harr]
    obtain ⟨hmem, hblocks, hfaults⟩ := Heap.extFree_perm
      (.of_eq ((Heap.live_extAlloc_null harr).trans (Heap.live_extAlloc hnode))) rfl
    exact ⟨hmem.trans (by simp), hblocks, hfaults.trans (by simp)⟩
  · exact absurd ⟨hnode, harr⟩ hgrant

end Rep

/-! ## `pool_new` -/

/-- `pool_new` from the linking loop on. -/
def build (pool arr poolSz chunkSz : Word) : C Word := do
  linkChunks (pure chunkSz) arr (poolSz - 1).toNat 0
  C.store (arr + (poolSz - 1) * chunkSz) 0 NULL
  C.store pool offFreeChunk arr
  C.store (← C.load pool offArrayStarts) offNext NULL
  C.store (← C.load pool offArrayStarts) offArr arr
  C.store pool offChunkSz chunkSz
  pure pool

theorem poolNew_eq (poolSz chunkSz : Word) : poolNew poolSz chunkSz =
    (if poolSz = 0 then pure NULL
    else do
      let pool ← poolExtAlloc sizeofPool
      if pool = NULL then pure NULL
      else do
        C.store pool offArrayStarts (← poolExtAlloc sizeofArrayStart)
        if (← C.load pool offArrayStarts) = NULL then do
          poolExtFree pool
          pure NULL
        else do
          let arr ← poolExtAlloc (poolSz * align2Boundary chunkSz sizeofPtr)
          if arr = NULL then do
            poolExtFree (← C.load pool offArrayStarts)
            poolExtFree pool
            pure NULL
          else build pool arr poolSz (align2Boundary chunkSz sizeofPtr)) := rfl

/-- The three allocations of `pool_new(pool_sz, chunk_sz)` succeed. -/
def NewGranted (poolSz chunkSz : Word) (h : Heap) : Prop :=
  (h.extAlloc sizeofPool).1 ≠ NULL ∧
    ((h.extAlloc sizeofPool).2.extAlloc sizeofArrayStart).1 ≠ NULL ∧
    (((h.extAlloc sizeofPool).2.extAlloc sizeofArrayStart).2.extAlloc
      (poolSz * align2Boundary chunkSz sizeofPtr)).1 ≠ NULL

instance (poolSz chunkSz : Word) (h : Heap) : Decidable (NewGranted poolSz chunkSz h) :=
  inferInstanceAs (Decidable (_ ∧ _))

/-- What `pool_new` leaves behind, by the outcome of its three allocations. -/
theorem run_poolNew {poolSz : Word} (hsz : poolSz ≠ 0) (chunkSz : Word) (h : Heap) :
    let r := h.extAlloc sizeofPool
    let q := r.2.extAlloc sizeofArrayStart
    let u := (q.2.put (r.1.toNat + 8) q.1).extAlloc (poolSz * align2Boundary chunkSz sizeofPtr)
    (poolNew poolSz chunkSz).run Heap.handle h =
      if r.1 = NULL then (NULL, r.2)
      else if q.1 = NULL then (NULL, (q.2.put (r.1.toNat + 8) q.1).extFree r.1)
      else if u.1 = NULL then (NULL, (u.2.extFree q.1).extFree r.1)
      else (build r.1 u.1 poolSz (align2Boundary chunkSz sizeofPtr)).run Heap.handle u.2 := by
  rw [poolNew_eq, if_neg hsz]
  simp only [Prog.run_bind, Prog.run_ite, val_poolExtAlloc, state_poolExtAlloc, Prog.monad_pure_eq,
    Prog.run_ret]
  have hlive := Heap.live_extAlloc (h := h) (n := sizeofPool)
  generalize h.extAlloc sizeofPool = r at hlive
  obtain ⟨pool, h₁⟩ := r
  by_cases hnull : pool = NULL
  · simp only [hnull, if_true]
  have hpool : poolBlock pool ∈ (h₁.extAlloc sizeofArrayStart).2.blocks.live :=
    Heap.mem_live_extAlloc (hlive hnull ▸ List.mem_cons_self) _
  generalize h₁.extAlloc sizeofArrayStart = q at hpool
  obtain ⟨node, h₂⟩ := q
  -- `array_starts` is written and read back inside the new `Pool` structure
  have hcov : ∀ h' : Heap, poolBlock pool ∈ h'.blocks.live →
      h'.blocks.Covers (pool.toNat + offArrayStarts) 8 := fun h' hb =>
    ⟨_, hb, by simp [poolBlock], by simp only [poolBlock, offArrayStarts]; omega⟩
  have hstore : (C.store pool offArrayStarts node).state h₂ = h₂.put (pool.toNat + 8) node :=
    C.state_store _ (hcov _ hpool)
  have hback : readWord (h₂.put (pool.toNat + 8) node).mem (pool.toNat + offArrayStarts) = node :=
    readWord_writeWord_self _ _ _
  have hload : (C.load pool offArrayStarts).state (h₂.put (pool.toNat + 8) node) =
      h₂.put (pool.toNat + 8) node := C.state_load (hcov _ hpool)
  have hload' : ∀ n, (C.load pool offArrayStarts).state
      ((h₂.put (pool.toNat + 8) node).extAlloc n).2 =
      ((h₂.put (pool.toNat + 8) node).extAlloc n).2 := fun n =>
    C.state_load (hcov _ (Heap.mem_live_extAlloc (by exact hpool) n))
  simp only [if_neg hnull, hstore, hload, hload', C.val_load, Heap.mem_extAlloc, hback,
    state_poolExtFree]

/-- What `pool_new` obtains when its allocations succeed. -/
def newPool (h : Heap) : Word := (h.extAlloc sizeofPool).1

def newArr (poolSz chunkSz : Word) (h : Heap) : Arr where
  node := ((h.extAlloc sizeofPool).2.extAlloc sizeofArrayStart).1
  arr := (((h.extAlloc sizeofPool).2.extAlloc sizeofArrayStart).2.extAlloc
    (poolSz * align2Boundary chunkSz sizeofPtr)).1
  count := poolSz.toNat

/-- With its allocations granted, `pool_new` builds the pool on three new blocks. -/
theorem run_poolNew_granted {poolSz chunkSz : Word} {h : Heap} (hsz : poolSz ≠ 0)
    (hgrant : NewGranted poolSz chunkSz h) :
    let a := newArr poolSz chunkSz h
    let S := align2Boundary chunkSz sizeofPtr
    ∃ h₃, (poolNew poolSz chunkSz).run Heap.handle h =
        (build (newPool h) a.arr poolSz S).run Heap.handle h₃ ∧
      h₃.blocks.live = ⟨a.arr.toNat, (poolSz * S).toNat⟩ :: a.nodeBlock :: poolBlock (newPool h) ::
        h.blocks.live ∧
      h₃.blocks.obtained.head? = some ⟨a.arr.toNat, (poolSz * S).toNat⟩ ∧
      h₃.faults = h.faults ∧ readWord h₃.mem ((newPool h).toNat + 8) = a.node := by
  obtain ⟨hpool, hnode, harr⟩ := hgrant
  intro a S
  let q := (h.extAlloc sizeofPool).2.extAlloc sizeofArrayStart
  let h₂ := q.2.put ((newPool h).toNat + 8) q.1
  have hval : (h₂.extAlloc (poolSz * S)).1 = a.arr := Heap.extAlloc_put ..
  have hblocks : (h₂.extAlloc (poolSz * S)).2.blocks = (q.2.extAlloc (poolSz * S)).2.blocks :=
    Heap.blocks_extAlloc_put ..
  refine ⟨(h₂.extAlloc (poolSz * S)).2, ?_, ?_, ?_, ?_, ?_⟩
  · have hrun := run_poolNew hsz chunkSz h
    simp only [if_neg hpool, if_neg hnode] at hrun
    rw [hrun, if_neg (hval ▸ harr)]
    exact congrArg (fun arr => (build (newPool h) arr poolSz S).run Heap.handle _) hval
  · rw [hblocks, Heap.live_extAlloc harr, Heap.live_extAlloc hnode, Heap.live_extAlloc hpool]
    rfl
  · rw [hblocks, Heap.obtained_extAlloc harr]
    rfl
  · simp [h₂, q]
  · rw [Heap.mem_extAlloc]
    exact readWord_writeWord_self _ _ _

@[simp] theorem val_build (pool arr poolSz S : Word) (h : Heap) :
    (build pool arr poolSz S).val h = pool := by simp [build]

/-- A `pool_new` that fails has given back every block it had obtained. -/
theorem poolNew_refused {poolSz chunkSz : Word} {h : Heap}
    (hno : ¬ (poolSz ≠ 0 ∧ NewGranted poolSz chunkSz h)) :
    let r := (poolNew poolSz chunkSz).run Heap.handle h
    r.1 = NULL ∧ r.2.blocks.live.Perm h.blocks.live ∧ r.2.faults = h.faults := by
  by_cases hsz : poolSz = 0
  · rw [poolNew_eq, if_pos hsz]
    exact ⟨rfl, .refl _, rfl⟩
  rw [run_poolNew hsz]
  by_cases hpool : (h.extAlloc sizeofPool).1 = NULL
  · rw [if_pos hpool, Heap.extAlloc_null hpool]
    exact ⟨rfl, .refl _, rfl⟩
  by_cases hnode : ((h.extAlloc sizeofPool).2.extAlloc sizeofArrayStart).1 = NULL
  · rw [if_neg hpool, if_pos hnode]
    obtain ⟨-, hblocks, hfaults⟩ := Heap.extFree_perm (h := Heap.put _ _ _)
      (.of_eq ((Heap.live_extAlloc_null hnode).trans (Heap.live_extAlloc hpool))) rfl
    exact ⟨rfl, hblocks, hfaults.trans (by simp)⟩
  · have harr : (((h.extAlloc sizeofPool).2.extAlloc sizeofArrayStart).2.extAlloc
        (poolSz * align2Boundary chunkSz sizeofPtr)).1 = NULL := by
      by_contra harr
      exact hno ⟨hsz, hpool, hnode, harr⟩
    rw [← Heap.extAlloc_put _ ((h.extAlloc sizeofPool).1.toNat + 8)
      ((h.extAlloc sizeofPool).2.extAlloc sizeofArrayStart).1] at harr
    rw [if_neg hpool, if_neg hnode, if_pos harr]
    obtain ⟨-, hblocks, hfaults⟩ := Heap.extFree_perm
      (.of_eq ((Heap.live_extAlloc_null harr).trans (Heap.live_extAlloc hnode))) rfl
    obtain ⟨-, hblocks', hfaults'⟩ := Heap.extFree_perm
      (hblocks.trans (.of_eq (Heap.live_extAlloc hpool))) rfl
    exact ⟨rfl, hblocks', hfaults'.trans (hfaults.trans (by simp))⟩

/-- When `pool_new` returns a pool. -/
theorem val_poolNew (poolSz chunkSz : Word) (h : Heap) : (poolNew poolSz chunkSz).val h =
    if poolSz ≠ 0 ∧ NewGranted poolSz chunkSz h then newPool h else NULL := by
  by_cases hgrant : poolSz ≠ 0 ∧ NewGranted poolSz chunkSz h
  · obtain ⟨h₃, hrun, -⟩ := run_poolNew_granted hgrant.1 hgrant.2
    rw [if_pos hgrant]
    exact (congrArg Prod.fst hrun).trans (val_build ..)
  · rw [if_neg hgrant]
    exact (poolNew_refused hgrant).1

/-- What `build` leaves behind, in terms of the heap `h₂` in which the array is linked. -/
theorem build_run {pool S poolSz : Word} {a : Arr} {h : Heap} (Y : Ready pool S a h)
    (hS : 8 ≤ S.toNat) (hsz : poolSz ≠ 0) (hcount : a.count = poolSz.toNat)
    (hstarts : readWord h.mem (pool.toNat + 8) = a.node) :
    ∃ h₂, OnlyIn (a.dataBlock S) h h₂ ∧
      (∀ i, i + 1 < a.count → link h₂.mem (a.chunk S i) = a.chunk S (i + 1)) ∧
      (∀ i, i + 1 = a.count → link h₂.mem (a.chunk S i) = NULL) ∧
      (build pool a.arr poolSz S).state h =
        (((h₂.put pool.toNat a.arr).put a.node.toNat NULL).put (a.node.toNat + 8) a.arr).put
          (pool.toNat + 16) S := by
  obtain ⟨n, hn, hpred, hpred'⟩ := pred_word hsz
  have hdata : a.dataBlock S = ⟨a.arr.toNat, (n + 1) * S.toNat⟩ := by
    rw [← hn, ← hcount]
    rfl
  obtain ⟨hin₁, hstore, hin₂, hlink, hlast⟩ := linkArray_spec (pure S) NULL
    (hdata ▸ (h.blocks.placed _ Y.data_mem).fits) hS (hdata ▸ Y.data_mem)
    (fun h' _ => ⟨rfl, rfl⟩)
  rw [← hdata] at hin₁ hin₂
  generalize hh₁ : (linkChunks (pure S) a.arr n 0).state h = h₁ at hin₁ hstore hin₂ hlink hlast
  generalize h₁.put (chunkAt a.arr S n).toNat NULL = h₂ at hstore hin₂ hlink hlast
  have hb₂ := hin₂.blocks
  have hnp := Y.node_pool.2
  simp only [poolBlock, Arr.nodeBlock] at hnp
  have hstarts₂ : readWord h₂.mem (pool.toNat + 8) = a.node :=
    (Y.readWord_pool 8 (by omega) hin₂).trans hstarts
  have hread₁ : readWord (writeWord h₂.mem (pool.toNat + offFreeChunk) a.arr)
      (pool.toNat + offArrayStarts) = a.node := by
    simp only [offFreeChunk, offArrayStarts]
    rw [readWord_writeWord_of_disjoint _ _ (by omega), hstarts₂]
  have hread₂ : readWord (writeWord (writeWord h₂.mem (pool.toNat + offFreeChunk) a.arr)
      (a.node.toNat + offNext) NULL) (pool.toNat + offArrayStarts) = a.node := by
    rw [readWord_writeWord_of_disjoint _ _ (by simp only [offNext, offArrayStarts]; omega), hread₁]
  have hlastChunk : a.arr + (poolSz - 1) * S = chunkAt a.arr S n := by rw [hpred]; rfl
  refine ⟨h₂, hin₂, fun i hi => hlink i (by omega), ?_, ?_⟩
  · intro i hi
    obtain rfl : i = n := by omega
    exact hlast
  · simp only [build, Prog.state_bind, hpred', hh₁, C.val_load, hlastChunk, hstore, Heap.blocks_put,
      Heap.mem_put, hb₂, hread₁, hread₂, Y.load_pool offArrayStarts (by decide),
      Y.store_pool offFreeChunk (by decide), Y.store_pool offChunkSz (by decide),
      Y.store_node offArr (by decide), Y.store_node offNext (by decide)]
    rfl

/-- A granted `pool_new` makes a pool whose chunks are all free. -/
theorem rep_poolNew {poolSz chunkSz : Word} {h : Heap} (hlive : h.blocks.live = [])
    (hclean : h.faults = []) (hsz : poolSz ≠ 0) (hgrant : NewGranted poolSz chunkSz h)
    (hS : 8 ≤ (align2Boundary chunkSz sizeofPtr).toNat)
    (hchunk : chunkSz.toNat ≤ (align2Boundary chunkSz sizeofPtr).toNat)
    (hfit : poolSz.toNat * (align2Boundary chunkSz sizeofPtr).toNat < 2 ^ 64) :
    let S := align2Boundary chunkSz sizeofPtr
    let a := newArr poolSz chunkSz h
    Rep ⟨chunkSz, poolSz, 0, newPool h⟩ ((poolNew poolSz chunkSz).state h) S (a.chunks S) []
      [a] := by
  intro S a
  obtain ⟨h₃, hrun, hlive₃, -, hfaults₃, hstarts⟩ := run_poolNew_granted hsz hgrant
  have hlive' : h₃.blocks.live = a.dataBlock S :: a.nodeBlock :: [poolBlock (newPool h)] := by
    rw [hlive₃, hlive, BitVec.toNat_mul, Nat.mod_eq_of_lt hfit]
    rfl
  have Y : Ready (newPool h) S a h₃ := .of_live (by simp) hlive'
  obtain ⟨h₂, hin, hlink, hlast, hbuild⟩ := build_run Y hS hsz rfl hstarts
  have hstate : (poolNew poolSz chunkSz).state h = _ := (congrArg Prod.snd hrun).trans hbuild
  have hnp := Y.node_pool.2
  simp only [poolBlock, Arr.nodeBlock] at hnp
  have hstarts₂ : readWord h₂.mem ((newPool h).toNat + 8) = a.node :=
    (Y.readWord_pool 8 (by omega) hin).trans hstarts
  have hframe : ∀ x, ((newPool h).toNat ≤ x ∧ x < (newPool h).toNat + 24) ∨
      (a.node.toNat ≤ x ∧ x < a.node.toNat + 16) ∨
      ((poolNew poolSz chunkSz).state h).mem x = h₂.mem x := by
    intro x
    by_cases hpool : (newPool h).toNat ≤ x ∧ x < (newPool h).toNat + 24
    · exact .inl hpool
    by_cases hnode : a.node.toNat ≤ x ∧ x < a.node.toNat + 16
    · exact .inr (.inl hnode)
    · rw [hstate]
      simp (disch := omega) only [Heap.mem_put, writeWord_of_disjoint, or_true]
  have hchunks : ∀ i < a.count, link ((poolNew poolSz chunkSz).state h).mem (a.chunk S i) =
      link h₂.mem (a.chunk S i) := fun i hi => Y.link_chunk hS hframe hi
  have hpos : 0 < a.count := Nat.pos_of_ne_zero fun h0 => hsz (BitVec.eq_of_toNat_eq h0)
  refine Rep.first hpos rfl rfl hchunk hS ?_ ?_ ?_ ?_
  · rw [hstate]
    simp only [Heap.blocks_put, hin.blocks, hlive']
    exact .swap ..
  · rw [hstate]
    exact hin.faults.trans (hfaults₃.trans hclean)
  · rw [hstate]
    exact readWord_writeWord_self _ _ _
  · intro h₀ hf₀ hhead₀ hstarts₀ hframe₀
    refine ⟨hf₀.symm, fun x => (hframe₀ x).imp_right fun hx => .inr (.inr hx),
      ?_, ?_, ?_, ?_, ?_, ?_⟩
    · rw [hstate]
      simp (disch := omega) only [Heap.mem_put, readWord_writeWord_of_disjoint,
        readWord_writeWord_self]
    · rw [hstate]
      simp (disch := omega) only [Heap.mem_put, readWord_writeWord_of_disjoint, hstarts₂]
    · rw [hstarts₀, hstate]
      simp (disch := omega) only [link, Heap.mem_put, readWord_writeWord_of_disjoint,
        readWord_writeWord_self]
    · rw [hstate]
      simp (disch := omega) only [Heap.mem_put, readWord_writeWord_of_disjoint,
        readWord_writeWord_self]
    · intro i hi
      exact (hchunks i (by omega)).trans (hlink i hi)
    · intro i hi
      rw [hhead₀]
      exact (hchunks i (by omega)).trans (hlast i hi)

/-! ## `pool_destroy` -/

/-- The loop over the nodes gives back the node and the array of each, and no more. -/
theorem destroyArrays_spec {S head : Word} {l : List Arr} {rest : List Block} {h : Heap} (fuel : ℕ)
    (hlive : h.blocks.live.Perm (l.flatMap (Arr.blocks S) ++ rest))
    (hnodes : Chain (link h.mem) NULL head (l.map Arr.node))
    (harrs : ∀ a ∈ l, readWord h.mem (a.node.toNat + 8) = a.arr) (hfuel : l.length < fuel) :
    let h' := (destroyArrays fuel head).state h
    h'.mem = h.mem ∧ h'.blocks.live.Perm rest ∧ h'.faults = h.faults := by
  induction l generalizing head h fuel with
  | nil =>
      obtain ⟨fuel, rfl⟩ : ∃ f, fuel = f + 1 := ⟨fuel - 1, by simp at hfuel; omega⟩
      obtain rfl : head = NULL := hnodes
      simpa [destroyArrays] using hlive
  | cons a l ih =>
      obtain ⟨fuel, rfl⟩ : ∃ f, fuel = f + 1 := ⟨fuel - 1, by simp at hfuel; omega⟩
      obtain ⟨rfl, hne, htail⟩ := hnodes
      have hnode : a.nodeBlock ∈ h.blocks.live := hlive.mem_iff.mpr (by simp [Arr.blocks])
      have hload : ∀ off, off + 8 ≤ 16 → (C.load a.node off).state h = h := fun off hoff =>
        C.state_load ⟨_, hnode, by simp [Block.Has, Arr.nodeBlock]; omega⟩
      have hdata : h.blocks.live.Perm
          (a.dataBlock S :: a.nodeBlock :: (l.flatMap (Arr.blocks S) ++ rest)) :=
        hlive.trans (.swap ..)
      obtain ⟨hmem₁, hlive₁, hfaults₁⟩ := Heap.extFree_perm (p := a.arr) hdata rfl
      obtain ⟨hmem₂, hlive₂, hfaults₂⟩ := Heap.extFree_perm (p := a.node) hlive₁ rfl
      have hmem := hmem₂.trans hmem₁
      have htail₂ : Chain (link ((h.extFree a.arr).extFree a.node).mem) NULL (link h.mem a.node)
          (l.map Arr.node) := by
        rw [hmem]
        exact htail
      have hrest := ih fuel hlive₂ htail₂
        (fun b hb => by rw [hmem]; exact harrs b (List.mem_cons_of_mem a hb)) (by simpa using hfuel)
      have hnext : readWord h.mem (a.node.toNat + offNext) = link h.mem a.node := rfl
      have harr : readWord h.mem (a.node.toNat + offArr) = a.arr := harrs a List.mem_cons_self
      simp only [destroyArrays, if_neg hne, Prog.state_bind, C.val_load, state_poolExtFree,
        hload offNext (by decide), hload offArr (by decide), hnext, harr]
      exact ⟨hrest.1.trans hmem, hrest.2.1, hrest.2.2.trans (hfaults₂.trans hfaults₁)⟩

/-- `pool_destroy` gives back every block of the pool, each once. -/
theorem Rep.poolDestroy_spec {m : Mempool} {h : Heap} {S : Word} {free held : List Word}
    {arrays : List Arr} (R : Rep m h S free held arrays) :
    let h' := (poolDestroy m.pool).state h
    h'.mem = h.mem ∧ h'.blocks.live = [] ∧ h'.faults = [] := by
  have hfuel : arrays.length < walkFuel := by
    simpa [walkFuel] using length_lt_of_nodup R.nodes.nodup R.nodes.ne_null
  have hload : (C.load m.pool offArrayStarts).state h = h := R.load_pool (by decide)
  have hlive : h.blocks.live.Perm (arrays.flatMap (Arr.blocks S) ++ [poolBlock m.pool]) :=
    R.layout.live.trans (List.perm_append_singleton _ _).symm
  obtain ⟨hmem, hlive₁, hfaults⟩ := destroyArrays_spec walkFuel hlive R.nodes R.arrs hfuel
  obtain ⟨hmem₂, hlive₂, hfaults₂⟩ := Heap.extFree_perm (p := m.pool) hlive₁ rfl
  simp only [poolDestroy, if_neg R.pool_ne_null, Prog.state_bind, C.val_load, state_poolExtFree,
    hload]
  exact ⟨hmem₂.trans hmem, hlive₂.eq_nil, hfaults₂.trans (hfaults.trans R.clean)⟩

end Unid.Common
