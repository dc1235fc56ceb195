import Unid.Common.LockedPool

/-!
# What the calls of a pool touch

A byte that a piece of code does not touch may be written before or after it, to
the same effect.  `pool_alloc` touches the `Pool` structure and the link of the
chunk it returns, `pool_free` the `Pool` structure and the link of the chunk it is
given, and `pool_expand` the `Pool` structure and memory that it has just
obtained: never a chunk that somebody else holds.

## Main definitions

* `CReq.Avoids`, `CReq.Within` — requests that leave a byte alone, and that stay in some blocks.
* `Rep.allocBody_within`, `freeBody_within`, `Rep.expandBody_within` — what the calls touch.
-/

namespace Unid.Common
open Lib

/-! ## Requests that leave a byte alone -/

namespace CReq

/-- The request does not touch the byte at `x`. -/
def Avoids (x : ℕ) : CReq → Prop
  | .load a | .store a _ => x < a ∨ a + 8 ≤ x
  | .extAlloc _ | .extFree _ | .spin => True

/-- The request stays within these blocks. -/
def Within (bs : List Block) : CReq → Prop
  | .load a | .store a _ => ∃ b ∈ bs, b.Has a 8
  | .extAlloc _ | .extFree _ | .spin => True

theorem Within.avoids {bs : List Block} {e : CReq} {x : ℕ} (h : e.Within bs)
    (hx : ∀ b ∈ bs, x < b.base ∨ b.base + b.size ≤ x) : e.Avoids x := by
  cases e with
  | load a | store a v =>
      obtain ⟨b, hb, hlo, hhi⟩ := h
      have := hx b hb
      simp only [Avoids]
      omega
  | extAlloc n | extFree p | spin => trivial

end CReq

namespace Heap
variable {x : ℕ} {b : Byte}

theorem touch_poke (h : Heap) (f : Fault) (a : ℕ) :
    (h.poke x b).touch f a = (h.touch f a).poke x b := by
  by_cases hc : h.blocks.Covers a 8 <;> simp [touch, poke, fault, hc]

theorem extAlloc_poke (h : Heap) (n : Word) :
    (h.poke x b).extAlloc n = ((h.extAlloc n).1, (h.extAlloc n).2.poke x b) := by
  by_cases hf : h.blocks.Fresh ⟨(h.answers 0).toNat, n.toNat⟩ <;>
    simp [extAlloc, poke, withAnswers, hf]

theorem extFree_poke (h : Heap) (p : Word) :
    (h.poke x b).extFree p = (h.extFree p).poke x b := by
  by_cases hp : p = NULL
  · simp [extFree, hp]
  · simp only [extFree, poke, if_neg hp]
    split <;> rfl

end Heap

theorem writeWord_writeByte {m : Mem} {a x : ℕ} {v : Word} {b : Byte} (h : x < a ∨ a + 8 ≤ x) :
    writeWord (writeByte m x b) a v = writeByte (writeWord m a v) x b := by
  funext y
  by_cases hy : y = x
  · subst hy
    rw [writeWord_of_disjoint _ _ h, writeByte_self, writeByte_self]
  · rw [writeByte_of_ne _ _ hy]
    simp only [writeWord, writeLE, writeByte_of_ne _ _ hy]

theorem CReq.Avoids.unaffected {e : CReq} {x : ℕ} (h : e.Avoids x) (b : Byte) :
    Prog.Unaffected Heap.handle (Heap.poke x b) e := by
  intro s
  cases e with
  | load a =>
      have hread : readWord (writeByte s.mem x b) a = readWord s.mem a := by
        refine readWord_congr fun y hlo hhi => writeByte_of_ne _ _ ?_
        simp only [Avoids] at h
        omega
      simp only [Heap.handle, Heap.touch_poke]
      rw [← hread]
      rfl
  | store a v =>
      simp only [Heap.handle, Heap.touch_poke]
      simp only [Heap.poke, writeWord_writeByte h]
  | extAlloc n => exact Heap.extAlloc_poke s n
  | extFree p => exact congrArg (Prod.mk ()) (Heap.extFree_poke s p)
  | spin => rfl

/-! ## What the calls touch -/

section Touch
variable {P : CReq → Prop} {h : Heap}

@[simp] theorem always_load {p : Word} {off : ℕ} :
    (C.load p off).Always Heap.handle (fun e _ => P e) h ↔ P (.load (p.toNat + off)) := by
  simp [C.load, Prog.ask, Prog.Always]

@[simp] theorem always_store {p v : Word} {off : ℕ} :
    (C.store p off v).Always Heap.handle (fun e _ => P e) h ↔ P (.store (p.toNat + off) v) := by
  simp [C.store, Prog.ask, Prog.Always]

@[simp] theorem always_poolExtAlloc {n : Word} :
    (poolExtAlloc n).Always Heap.handle (fun e _ => P e) h ↔ P (.extAlloc n) := by
  simp [poolExtAlloc, Prog.ask, Prog.Always]

@[simp] theorem always_poolExtFree {p : Word} :
    (poolExtFree p).Always Heap.handle (fun e _ => P e) h ↔ P (.extFree p) := by
  simp [poolExtFree, Prog.ask, Prog.Always]

/-- The loop that links the chunks of an array stays within the array. -/
theorem always_linkChunks (sz : C Word) {arr S : Word} {N : ℕ}
    (hfits : arr.toNat + N * S.toNat ≤ 2 ^ 64) (hS : 8 ≤ S.toNat)
    (hlive : ⟨arr.toNat, N * S.toNat⟩ ∈ h.blocks.live)
    (hsz : ∀ h', OnlyIn ⟨arr.toNat, N * S.toNat⟩ h h' → sz.val h' = S ∧ sz.state h' = h' ∧
      sz.Always Heap.handle (fun e _ => P e) h')
    (hstore : ∀ a v, (⟨arr.toNat, N * S.toNat⟩ : Block).Has a 8 → P (.store a v))
    (n i : ℕ) (hn : i + n < N) :
    (linkChunks sz arr n (BitVec.ofNat 64 i)).Always Heap.handle (fun e _ => P e) h := by
  induction n generalizing i h with
  | zero => trivial
  | succ n ih =>
      have haddr := toNat_chunkAt (i := i) hfits (by omega) (by omega)
      have hle : (i + 1) * S.toNat ≤ N * S.toNat := Nat.mul_le_mul_right _ (by omega)
      rw [add_mul, one_mul] at hle
      have hhas : (⟨arr.toNat, N * S.toNat⟩ : Block).Has (chunkAt arr S i).toNat 8 := by
        refine ⟨?_, ?_⟩ <;> simp only [haddr] <;> omega
      obtain ⟨hval, hstate, halways⟩ := hsz h (.refl _ _)
      have hcov : h.blocks.Covers ((chunkAt arr S i).toNat + 0) 8 := ⟨_, hlive, hhas⟩
      have hnext : BitVec.ofNat 64 i + 1 = BitVec.ofNat 64 (i + 1) := (BitVec.ofNat_add ..).symm
      have hin := OnlyIn.put (h := h) (chunkAt arr S (i + 1)) hhas
      have hrest := ih (h := h.put (chunkAt arr S i).toNat (chunkAt arr S (i + 1))) hlive
        (fun h' h₁ => hsz h' (hin.trans h₁)) (i + 1) (by omega)
      have hput : (C.store (chunkAt arr S i) 0 (chunkAt arr S (i + 1))).state h =
          h.put (chunkAt arr S i).toNat (chunkAt arr S (i + 1)) := C.state_store _ hcov
      simp only [linkChunks, Prog.always_bind, hval, hstate, halways, hnext, true_and]
      refine ⟨always_store.mpr (hstore _ _ hhas), ?_⟩
      change (linkChunks sz arr n _).Always Heap.handle _
        ((C.store (chunkAt arr S i) 0 (chunkAt arr S (i + 1))).state h)
      rw [hput]
      exact hrest

end Touch

/-- The piece of memory that holds the link of a chunk. -/
def linkBlock (c : Word) : Block := ⟨c.toNat, 8⟩

theorem within_pool {pool : Word} {off : ℕ} {bs : List Block} (hoff : off + 8 ≤ 24)
    (hb : poolBlock pool ∈ bs) : ∃ b ∈ bs, b.Has (pool.toNat + off) 8 :=
  ⟨_, hb, by simp [Block.Has, poolBlock]; omega⟩

/-- Once it has its memory, `pool_expand` stays within the `Pool` structure and the new blocks. -/
theorem attach_within {pool S extraSz : Word} {a : Arr} {h : Heap} (Y : Ready pool S a h)
    (hstride : readWord h.mem (pool.toNat + 16) = S) (hS : 8 ≤ S.toNat) (hsz : extraSz ≠ 0)
    (hcount : a.count = extraSz.toNat) :
    (attach pool a.node a.arr extraSz).Always Heap.handle
      (fun e _ => e.Within [poolBlock pool, a.nodeBlock, a.dataBlock S]) h := by
  obtain ⟨n, hn, hpred, hpred'⟩ := pred_word hsz
  have hdata : a.dataBlock S = ⟨a.arr.toNat, (n + 1) * S.toNat⟩ := by
    rw [← hn, ← hcount]
    rfl
  have hfits := hdata ▸ (h.blocks.placed _ Y.data_mem).fits
  have hload : ∀ h', OnlyIn ⟨a.arr.toNat, (n + 1) * S.toNat⟩ h h' →
      (C.load pool offChunkSz).val h' = S ∧ (C.load pool offChunkSz).state h' = h' := by
    intro h' hin
    rw [← hdata] at hin
    refine ⟨?_, Y.load_pool _ (by simp) hin.blocks⟩
    rw [C.val_load, Y.readWord_pool _ (by simp) hin, hstride]
  have hpool : ∀ off, off + 8 ≤ 24 → ∃ b ∈ [poolBlock pool, a.nodeBlock, a.dataBlock S],
      b.Has (pool.toNat + off) 8 := fun off hoff => within_pool hoff (by simp)
  have hlink : (linkChunks (C.load pool offChunkSz) a.arr n 0).Always Heap.handle
      (fun e _ => e.Within [poolBlock pool, a.nodeBlock, a.dataBlock S]) h := by
    refine always_linkChunks _ hfits hS (hdata ▸ Y.data_mem) ?_ ?_ n 0 (by omega)
    · intro h' hin
      exact ⟨(hload h' hin).1, (hload h' hin).2, always_load.mpr (hpool _ (by simp))⟩
    · intro x v hx
      exact ⟨a.dataBlock S, by simp, hdata ▸ hx⟩
  have honly : OnlyIn ⟨a.arr.toNat, (n + 1) * S.toNat⟩ h
      ((linkChunks (C.load pool offChunkSz) a.arr n 0).state h) :=
    (linkArray_spec (C.load pool offChunkSz) NULL hfits hS (hdata ▸ Y.data_mem) hload).1
  -- the last chunk is addressed through the stored chunk size
  have hlast : (a.dataBlock S).Has (a.arr + (extraSz - 1) * S).toNat 8 := by
    have haddr := toNat_chunkAt (i := n) hfits (by omega) (by omega)
    rw [hpred, hdata]
    change Block.Has _ (chunkAt a.arr S n).toNat 8
    refine ⟨?_, ?_⟩ <;> simp only [haddr, add_mul] <;> omega
  obtain ⟨hval, hstate⟩ := hload _ honly
  simp only [attach, Prog.always_bind, hpred', always_load, always_store, hval, hstate]
  refine ⟨hlink, hpool offChunkSz (by decide), hpool offFreeChunk (by decide),
    ⟨_, by simp, hlast⟩, hpool offFreeChunk (by decide), ?_, hpool offArrayStarts (by decide), ?_,
    hpool offArrayStarts (by decide), trivial⟩
  · exact ⟨a.nodeBlock, by simp, by simp [Block.Has, Arr.nodeBlock]⟩
  · exact ⟨a.nodeBlock, by simp, by simp [Block.Has, Arr.nodeBlock]⟩

theorem freeBody_within (pool ptr : Word) (h : Heap) :
    (freeBody pool ptr).Always Heap.handle
      (fun e _ => e.Within [poolBlock pool, linkBlock ptr]) h := by
  have hpool : ∃ b ∈ [poolBlock pool, linkBlock ptr], b.Has (pool.toNat + offFreeChunk) 8 :=
    within_pool (by decide) List.mem_cons_self
  simp only [freeBody, Prog.always_bind, always_load, always_store]
  exact ⟨hpool, ⟨linkBlock ptr, by simp, by simp [Block.Has, linkBlock]⟩, hpool⟩

namespace Rep
variable {m : Mempool} {h : Heap} {S : Word} {free held : List Word} {arrays : List Arr}

theorem allocBody_within (R : Rep m h S free held arrays) :
    (allocBody m.pool).Always Heap.handle
      (fun e _ => e.Within (poolBlock m.pool :: free.map linkBlock)) h := by
  have hpool : ∃ b ∈ poolBlock m.pool :: free.map linkBlock,
      b.Has (m.pool.toNat + offFreeChunk) 8 := within_pool (by decide) List.mem_cons_self
  cases free with
  | nil =>
      have hhead : readWord h.mem (m.pool.toNat + offFreeChunk) = NULL := R.chain
      simp only [allocBody, Prog.always_bind, always_load, C.val_load, hhead, if_true]
      exact ⟨hpool, trivial⟩
  | cons c free =>
      obtain ⟨hhead, hne, -⟩ := R.chain
      have hhead : readWord h.mem (m.pool.toNat + offFreeChunk) = c := hhead
      have hlink : ∃ b ∈ poolBlock m.pool :: (c :: free).map linkBlock, b.Has (c.toNat + 0) 8 :=
        ⟨linkBlock c, by simp, by simp [Block.Has, linkBlock]⟩
      have hload := R.load_pool (show offFreeChunk + 8 ≤ 24 by decide)
      simp only [allocBody, Prog.always_bind, always_load, always_store, C.val_load, hload, hhead,
        if_neg hne]
      exact ⟨hpool, hpool, hpool, hlink, hpool, trivial⟩

/-- The blocks that `pool_expand` has obtained when it has obtained both. -/
theorem ready_expand (R : Rep m h S free held arrays) {extraSz : Word}
    (hgrant : ExpandGranted m.pool extraSz h) (hfit : extraSz.toNat * S.toNat < 2 ^ 64) :
    let a := grantedArr m.pool extraSz h
    ((h.extAlloc sizeofArrayStart).2.extAlloc
      (extraSz * readWord h.mem (m.pool.toNat + offChunkSz))).2.blocks.live =
        a.dataBlock S :: a.nodeBlock :: h.blocks.live := by
  intro a
  have hbytes : (extraSz * readWord h.mem (m.pool.toNat + offChunkSz)).toNat =
      extraSz.toNat * S.toNat := by
    rw [show readWord h.mem (m.pool.toNat + offChunkSz) = S from R.stride, BitVec.toNat_mul,
      Nat.mod_eq_of_lt hfit]
  rw [Heap.live_extAlloc hgrant.2, Heap.live_extAlloc hgrant.1, hbytes]
  rfl

/-- `pool_expand` stays within the `Pool` structure and blocks that are apart from all others. -/
theorem expandBody_within (R : Rep m h S free held arrays) {extraSz : Word} (hsz : extraSz ≠ 0)
    (hfit : extraSz.toNat * S.toNat < 2 ^ 64) :
    ∃ new : List Block, (∀ b ∈ new, ∀ c ∈ h.blocks.live, b.Apart c) ∧
      (expandBody m.pool extraSz).Always Heap.handle
        (fun e _ => e.Within (poolBlock m.pool :: new)) h := by
  have hpool : ∀ new, ∃ b ∈ poolBlock m.pool :: new, b.Has (m.pool.toNat + offChunkSz) 8 :=
    fun new => within_pool (by decide) List.mem_cons_self
  have hload : (C.load m.pool offChunkSz).state (h.extAlloc sizeofArrayStart).2 =
      (h.extAlloc sizeofArrayStart).2 :=
    C.state_load ⟨_, Heap.mem_live_extAlloc R.layout.pool_mem _, by simp [Block.Has, poolBlock]⟩
  have hbody : expandBody m.pool extraSz = (do
      let arrayStart ← poolExtAlloc sizeofArrayStart
      if arrayStart = NULL then pure false
      else do
        let extraArr ← poolExtAlloc (extraSz * (← C.load m.pool offChunkSz))
        if extraArr = NULL then do
          poolExtFree arrayStart
          pure false
        else attach m.pool arrayStart extraArr extraSz) := rfl
  simp only [hbody, Prog.always_bind, always_poolExtAlloc, val_poolExtAlloc, state_poolExtAlloc]
  by_cases hnode : (h.extAlloc sizeofArrayStart).1 = NULL
  · refine ⟨[], List.forall_mem_nil _, trivial, ?_⟩
    rw [if_pos hnode]
    trivial
  simp only [if_neg hnode, Prog.always_bind, always_load, always_poolExtAlloc, val_poolExtAlloc,
    state_poolExtAlloc, C.val_load, Heap.mem_extAlloc, hload]
  by_cases harr : ((h.extAlloc sizeofArrayStart).2.extAlloc
      (extraSz * readWord h.mem (m.pool.toNat + offChunkSz))).1 = NULL
  · refine ⟨[], List.forall_mem_nil _, trivial, hpool [], trivial, ?_⟩
    simp only [if_pos harr, Prog.always_bind, always_poolExtFree]
    exact ⟨trivial, trivial⟩
  · have hlive := R.ready_expand ⟨hnode, harr⟩ hfit
    refine ⟨[(grantedArr m.pool extraSz h).nodeBlock, (grantedArr m.pool extraSz h).dataBlock S],
      ?_, trivial, hpool _, trivial, ?_⟩
    · have hapart := BlockTable.apart ((h.extAlloc sizeofArrayStart).2.extAlloc
        (extraSz * readWord h.mem (m.pool.toNat + offChunkSz))).2.blocks
      rw [hlive, List.pairwise_cons, List.pairwise_cons] at hapart
      simp only [List.forall_mem_cons]
      exact ⟨hapart.2.1, fun c hc => hapart.1 c (List.mem_cons_of_mem _ hc),
        List.forall_mem_nil _⟩
    · rw [if_neg harr]
      exact attach_within (.of_live R.layout.pool_mem hlive) (by simpa using R.stride)
        R.layout.link_le hsz rfl

end Rep

end Unid.Common
